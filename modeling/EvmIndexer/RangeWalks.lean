/-
The three walks over a range, with their arithmetic checked.

`split_inclusive_range` and the two loops of `ingest.rs` advance alike: the end of a chunk
saturates and is clamped, and the loop is left at `u64::MAX` before the next block would
pass it. The two loops of `ingest.rs` also count: they compute the number of chunks before
the first and number each chunk. So the walks themselves are safe on every range, and the
counting is on every range but one: all of `u64` in chunks of one block, whose number of
chunks is one more than a `u64` holds (`range_walks_exactly_iff`).
-/
import EvmIndexer.Ingest
import EvmIndexer.Partition
import EvmIndexer.Lib.Machine

set_option autoImplicit false

namespace EvmIndexer

open Machine

namespace Checked

/-- A `u64`, or a `usize` of a 64-bit target. -/
abbrev fits_u64 (n : Int) : Counted String Unit := fits u64_max n

section Walk

variable {α β : Type} (turn : BackfillChunk → α → Counted String (α ⊕ β))

/-- The loop over the chunks of a range, from `chunk_from` on. A turn goes on with what it
has gathered, or returns early. -/
def walk («to» chunk_size chunk_from : Nat) (gathered : α) : Counted String (α ⊕ β) :=
  if _ : chunk_from ≤ «to» then do
    step
    fits_u64 (chunk_size - 1)
    let chunk_to := chunk_end chunk_from «to» chunk_size
    match ← turn { «from» := chunk_from, «to» := chunk_to } gathered with
    | .inr found => pure (.inr found)
    | .inl gathered =>
      if hend : chunk_to = u64_max then pure (.inl gathered)
      else do
        fits_u64 (chunk_to + 1)
        walk «to» chunk_size (chunk_to + 1) gathered
  else pure (.inl gathered)
termination_by «to» + 1 - chunk_from
decreasing_by
  have hle := le_chunk_end ‹chunk_from ≤ «to»› hend
  omega

end Walk

/-- The chunks of the walk, as `split_inclusive_range` pushes them. -/
def push_chunk (chunk : BackfillChunk) (ranges : List BackfillChunk) :
    Counted String (List BackfillChunk ⊕ Empty) := pure (.inl (ranges ++ [chunk]))

/-- `split_inclusive_range`. -/
def split_inclusive_range («from» «to» range_size : Nat) : Counted String (List BackfillChunk) :=
  if «to» < «from» then
    lift (.error ("from-block " ++ toString «from» ++ " cannot be greater than to-block " ++
      toString «to»))
  else if range_size = 0 then lift (.error "range-size must be greater than zero")
  else do
    match ← walk push_chunk «to» range_size «from» [] with
    | .inl ranges => pure ranges

/-- The number of chunks the two loops of `ingest.rs` report their progress by. -/
def total_chunks («from» «to» chunk_size : Nat) : Counted String Nat := do
  fits_u64 («to» - «from»)
  fits_u64 (((«to» - «from») / chunk_size : Nat) + 1)
  pure ((«to» - «from») / chunk_size + 1)

section Loops

variable (keccak256 : String → String) (rpc : ChainRpc) (contract : String)

/-- The turn of `fetch_logs_in_chunks_with_progress`, on the number of the chunk, the logs and
the chunk of the detection. -/
def fetch_chunk (standard : TokenStandard) (chunk : BackfillChunk)
    (gathered : Nat × List RpcLog × Option PrefetchedLogChunk) :
    Counted String ((Nat × List RpcLog × Option PrefetchedLogChunk) ⊕ Empty) := do
  let (chunk_number, logs, prefetched_logs) := gathered
  fits_u64 (chunk_number + 1)
  match prefetched_logs.filter (fun p => p.«from» = chunk.«from» ∧ p.«to» = chunk.«to») with
  | some prefetched => pure (.inl (chunk_number + 1, logs ++ prefetched.logs, none))
  | none => do
    let chunk_logs ← lift (context ("fetch contract logs " ++ toString chunk.«from» ++ "..=" ++
      toString chunk.«to») (rpc.logs contract standard chunk.«from» chunk.«to»))
    pure (.inl (chunk_number + 1, logs ++ chunk_logs, prefetched_logs))

/-- `fetch_logs_in_chunks_with_progress`. -/
def fetch_logs_in_chunks_with_progress (standard : TokenStandard) («from» «to» chunk_size : Nat)
    (prefetched_logs : Option PrefetchedLogChunk) : Counted String (List RpcLog) :=
  if «to» < «from» then
    lift (.error ("from-block " ++ toString «from» ++ " cannot be greater than to-block " ++
      toString «to»))
  else if chunk_size = 0 then lift (.error "chunk-size must be greater than zero")
  else do
    let _ ← total_chunks «from» «to» chunk_size
    match ← walk (fetch_chunk rpc contract standard) «to» chunk_size «from»
      (0, [], prefetched_logs) with
    | .inl (_, logs, _) => pure logs

/-- The turn of `detect_token_standard_with_prefetched_logs`, on the number of the chunk. -/
def detect_in_chunk (chunk : BackfillChunk) (chunk_number : Nat) :
    Counted String (Nat ⊕ TokenStandardDetection) := do
  fits_u64 (chunk_number + 1)
  let logs ← lift (context ("fetch contract logs for token standard detection " ++
    toString chunk.«from» ++ "..=" ++ toString chunk.«to»)
    (rpc.logs contract .Auto chunk.«from» chunk.«to»))
  match ← lift (detect_token_standard_from_logs keccak256 logs) with
  | some standard =>
    pure (.inr { standard
                 prefetched_logs := { «from» := chunk.«from», «to» := chunk.«to», logs } })
  | none => pure (.inl (chunk_number + 1))

/-- `detect_token_standard_with_prefetched_logs`. -/
def detect_token_standard_with_prefetched_logs («from» «to» chunk_size : Nat) :
    Counted String TokenStandardDetection :=
  if «to» < «from» then
    lift (.error ("from-block " ++ toString «from» ++ " cannot be greater than to-block " ++
      toString «to»))
  else if chunk_size = 0 then lift (.error "chunk-size must be greater than zero")
  else do
    let _ ← total_chunks «from» «to» chunk_size
    match ← walk (detect_in_chunk keccak256 rpc contract) «to» chunk_size «from» 0 with
    | .inr detection => pure detection
    | .inl _ =>
      lift (.error ("could not auto-detect token standard for " ++ contract ++ " over blocks " ++
        toString «from» ++ "..=" ++ toString «to» ++
        "; no ERC-20, ERC-721, or ERC-1155 transfer logs were found"))

end Loops

end Checked

/-! ## A walk is over the chunks of a split

With its arithmetic checked, the loop is a recursion on the block a chunk starts at. It takes
the turns of the list of chunks, and no sum on the way overflows, since it saturates or is
not computed.
-/

section Walk

variable {α β : Type} (turn : BackfillChunk → α → Counted String (α ⊕ β))

/-- The turns of a walk on a list of chunks. -/
def walk_chunks : List BackfillChunk → α → Counted String (α ⊕ β)
  | [], gathered => pure (.inl gathered)
  | chunk :: rest, gathered => do
    step
    match ← turn chunk gathered with
    | .inr found => pure (.inr found)
    | .inl gathered => walk_chunks rest gathered

theorem walk_eq {«to» chunk_size : Nat} (hto : «to» ≤ u64_max) (hsize : 1 ≤ chunk_size)
    (hfits : chunk_size ≤ u64_max) (chunk_from : Nat) (gathered : α) :
    Checked.walk turn «to» chunk_size chunk_from gathered
      = walk_chunks turn (split_from chunk_from «to» chunk_size) gathered := by
  fun_induction split_from chunk_from «to» chunk_size generalizing gathered with
  | case1 chunk_from hmore ih =>
    have hend_le : chunk_end chunk_from «to» chunk_size ≤ «to» := min_le_right _ _
    rw [Checked.walk, dif_pos hmore, walk_chunks, fits_bind (by omega)]
    refine bind_congr fun _ => bind_congr fun r => ?_
    cases r with
    | inr found => rfl
    | inl gathered =>
      dsimp only
      by_cases hend : chunk_end chunk_from «to» chunk_size = u64_max
      · rw [dif_pos hend, dif_pos hend]
        rfl
      · rw [dif_neg hend, dif_neg hend, fits_bind (by omega)]
        exact ih hend gathered
  | case2 chunk_from hmore =>
    rw [Checked.walk, dif_neg hmore]
    rfl

end Walk

/-- A split has as many chunks as the sizes that fit, and the last. -/
theorem length_split_from {first last range_size : Nat} (hle : first ≤ last)
    (hlast : last ≤ u64_max) (hsize : 0 < range_size) :
    (split_from first last range_size).length = (last - first) / range_size + 1 := by
  induction hn : last - first using Nat.strong_induction_on generalizing first with
  | _ n ih =>
    by_cases hmore : first + range_size ≤ last
    · have hrest := ih (last - (first + range_size)) (by omega) hmore rfl
      have hdiv : n / range_size = (n - range_size) / range_size + 1 :=
        Nat.div_eq_sub_div hsize (by omega)
      have hsub : last - (first + range_size) = n - range_size := by omega
      rw [split_from_more hlast hsize hmore, List.length_cons, hrest, hsub, hdiv]
    · rw [split_from_last hle hlast (not_le.1 hmore), Nat.div_eq_of_lt (by omega)]
      rfl

/-! ## The turns of each walk

What a turn does besides is count: a number for the chunk, one more than the last. As long as
the number of chunks fits, so does each number.
-/

/-- A split pushes its chunks. -/
theorem push_chunks_ends (chunks ranges : List BackfillChunk) (n : Nat) :
    Ends (walk_chunks Checked.push_chunk chunks ranges) n fun result turns =>
      result = .ok (.inl (ranges ++ chunks)) ∧ turns = n + chunks.length := by
  induction chunks generalizing ranges n with
  | nil =>
    rw [walk_chunks, ends_pure, List.append_nil]
    exact ⟨rfl, rfl⟩
  | cons chunk rest ih =>
    rw [walk_chunks, ends_step_bind]
    refine (ih (ranges ++ [chunk]) (n + 1)).mono ?_
    rintro result turns ⟨rfl, rfl⟩
    rw [List.append_assoc, List.length_cons]
    exact ⟨rfl, by omega⟩

section Turns

variable {keccak256 : String → String} {rpc : ChainRpc} {contract : String}

/-- As long as the chunks can be numbered, fetching goes through them all or stops on an error. -/
theorem fetch_chunks_ends {standard : TokenStandard} {chunks : List BackfillChunk}
    (chunk_number : Nat) (logs : List RpcLog) (prefetched_logs : Option PrefetchedLogChunk) (n : Nat)
    (hnumbers : chunk_number + chunks.length ≤ u64_max) :
    Ends (walk_chunks (Checked.fetch_chunk rpc contract standard) chunks
        (chunk_number, logs, prefetched_logs)) n fun result turns =>
      (∃ more last_number left,
        fetch_chunks rpc contract standard prefetched_logs chunks = .ok more ∧
          result = .ok (.inl (last_number, logs ++ more, left)) ∧ turns = n + chunks.length) ∨
      (∃ e, fetch_chunks rpc contract standard prefetched_logs chunks = .error e ∧
        result = .error e ∧ turns ≤ n + chunks.length) := by
  induction chunks generalizing chunk_number logs prefetched_logs n with
  | nil =>
    rw [walk_chunks, fetch_chunks, ends_pure]
    refine Or.inl ⟨[], chunk_number, prefetched_logs, rfl, ?_, rfl⟩
    rw [List.append_nil]
  | cons chunk rest ih =>
    rw [List.length_cons] at hnumbers
    rw [walk_chunks, ends_step_bind, fetch_chunks, List.length_cons]
    unfold Checked.fetch_chunk
    dsimp only
    -- the number of the chunk fits, so counting it is no check
    rw [fits_bind (by omega)]
    cases prefetched_logs.filter fun p => p.«from» = chunk.«from» ∧ p.«to» = chunk.«to» with
    -- the logs of the first chunk may be there already
    | some prefetched =>
      refine (ih (chunk_number + 1) (logs ++ prefetched.logs) none (n + 1) (by omega)).mono ?_
      rintro result turns (⟨more, last_number, left, hmore, rfl, rfl⟩ | ⟨e, he, rfl, hturns⟩)
      · refine Or.inl ⟨prefetched.logs ++ more, last_number, left, ?_, ?_, by omega⟩
        · rw [hmore]
          rfl
        · rw [List.append_assoc]
      · refine Or.inr ⟨e, ?_, rfl, by omega⟩
        rw [he]
        rfl
    | none =>
      dsimp only
      rw [bind_assoc, ends_lift_bind]
      cases context ("fetch contract logs " ++ toString chunk.«from» ++ "..=" ++
          toString chunk.«to») (rpc.logs contract standard chunk.«from» chunk.«to») with
      | error e => exact Or.inr ⟨e, rfl, rfl, by omega⟩
      | ok chunk_logs =>
        rw [after_ok]
        refine (ih (chunk_number + 1) (logs ++ chunk_logs) prefetched_logs (n + 1)
          (by omega)).mono ?_
        rintro result turns (⟨more, last_number, left, hmore, rfl, rfl⟩ | ⟨e, he, rfl, hturns⟩)
        · refine Or.inl ⟨chunk_logs ++ more, last_number, left, ?_, ?_, by omega⟩
          · rw [hmore]
            rfl
          · rw [List.append_assoc]
        · refine Or.inr ⟨e, ?_, rfl, by omega⟩
          rw [he]
          rfl

/-- As long as the chunks can be numbered, the detection goes through them all, finds a
standard or stops on an error. -/
theorem detect_in_chunks_ends {chunks : List BackfillChunk} (chunk_number n : Nat)
    (hnumbers : chunk_number + chunks.length ≤ u64_max) :
    Ends (walk_chunks (Checked.detect_in_chunk keccak256 rpc contract) chunks chunk_number) n
      fun result turns =>
        (∃ last_number, detect_in_chunks keccak256 rpc contract chunks = .ok none ∧
          result = .ok (.inl last_number) ∧ turns = n + chunks.length) ∨
        (∃ detection, detect_in_chunks keccak256 rpc contract chunks = .ok (some detection) ∧
          result = .ok (.inr detection) ∧ turns ≤ n + chunks.length) ∨
        (∃ e, detect_in_chunks keccak256 rpc contract chunks = .error e ∧ result = .error e ∧
          turns ≤ n + chunks.length) := by
  induction chunks generalizing chunk_number n with
  | nil =>
    rw [walk_chunks, detect_in_chunks, ends_pure]
    exact Or.inl ⟨chunk_number, rfl, rfl, rfl⟩
  | cons chunk rest ih =>
    rw [List.length_cons] at hnumbers
    rw [walk_chunks, ends_step_bind, detect_in_chunks, List.length_cons]
    unfold Checked.detect_in_chunk
    rw [fits_bind (by omega), bind_assoc, ends_lift_bind]
    cases context ("fetch contract logs for token standard detection " ++
        toString chunk.«from» ++ "..=" ++ toString chunk.«to»)
        (rpc.logs contract .Auto chunk.«from» chunk.«to») with
    | error e => exact Or.inr (Or.inr ⟨e, rfl, rfl, by omega⟩)
    | ok logs =>
      rw [after_ok, bind_assoc, ends_lift_bind, ok_bind]
      cases detect_token_standard_from_logs keccak256 logs with
      | error e => exact Or.inr (Or.inr ⟨e, rfl, rfl, by omega⟩)
      | ok found =>
        cases found with
        | some standard => exact Or.inr (Or.inl ⟨_, rfl, rfl, by omega⟩)
        -- the chunk tells no standard, so the rest is looked at
        | none =>
          rw [after_ok]
          refine (ih (chunk_number + 1) (n + 1) (by omega)).mono ?_
          rintro result turns (⟨last_number, hnone, rfl, rfl⟩ | ⟨detection, hfound, rfl, hturns⟩ |
            ⟨e, he, rfl, hturns⟩)
          · exact Or.inl ⟨last_number, hnone, rfl, by omega⟩
          · exact Or.inr (Or.inl ⟨detection, hfound, rfl, by omega⟩)
          · exact Or.inr (Or.inr ⟨e, he, rfl, by omega⟩)

end Turns

/-! ## The three walks

The number of chunks is computed before the loop, by a division and an addition of one. Only
for all blocks in chunks of one does that addition pass the width.
-/

/-- The walks over the range do not pass the width of their numbers. They return what the
model without a width returns, after as many turns as the range has chunks, or fewer where
they return early. -/
structure WalksExactly (keccak256 : String → String) («from» «to» chunk_size : Nat) : Prop where
  split : Ends (Checked.split_inclusive_range «from» «to» chunk_size) 0 fun result turns =>
    result = split_inclusive_range «from» «to» chunk_size ∧
      turns = («to» - «from») / chunk_size + 1
  fetch : ∀ rpc contract standard prefetched_logs,
    Ends (Checked.fetch_logs_in_chunks_with_progress rpc contract standard «from» «to» chunk_size
        prefetched_logs) 0 fun result turns =>
      result = fetch_logs_in_chunks rpc contract standard «from» «to» chunk_size prefetched_logs ∧
        turns ≤ («to» - «from») / chunk_size + 1 ∧
        ∀ logs, result = .ok logs → turns = («to» - «from») / chunk_size + 1
  detect : ∀ rpc contract,
    Ends (Checked.detect_token_standard_with_prefetched_logs keccak256 rpc contract «from» «to»
        chunk_size) 0 fun result turns =>
      result = detect_token_standard_with_prefetched_logs keccak256 rpc contract «from» «to»
          chunk_size ∧
        turns ≤ («to» - «from») / chunk_size + 1 ∧
        (detect_in_chunks keccak256 rpc contract (split_from «from» «to» chunk_size) = .ok none →
          turns = («to» - «from») / chunk_size + 1)

/-- The chunks of a range can be counted, but for all of `u64` block by block. -/
theorem chunk_count_le_iff {«from» «to» chunk_size : Nat} (hle : «from» ≤ «to»)
    (hto : «to» ≤ u64_max) (hsize : 1 ≤ chunk_size) :
    («to» - «from») / chunk_size + 1 ≤ u64_max ↔
      ¬ («from» = 0 ∧ «to» = u64_max ∧ chunk_size = 1) := by
  constructor
  · rintro hcount ⟨rfl, rfl, rfl⟩
    rw [Nat.div_one] at hcount
    omega
  · intro hall
    have hdiv : («to» - «from») / chunk_size ≤ «to» - «from» := Nat.div_le_self _ _
    by_cases hwhole : «from» = 0 ∧ «to» = u64_max
    · have htwo : 2 ≤ chunk_size := by omega
      have hhalf := Nat.div_le_div_left htwo (show 0 < 2 by decide) (a := «to» - «from»)
      unfold u64_max at *
      omega
    · unfold u64_max at *
      omega

/-- An RPC of an empty chain. -/
def idle_rpc : ChainRpc where
  block_number := .ok 0
  code_at _ _ := .ok "0x"
  block_hash _ := .ok "0x"
  block_timestamp _ := .ok 0
  logs _ _ _ _ := .ok []
  transaction_receipt _ := .error "no receipt"

/-- The walks over a range are exact and do not overflow, but for all of `u64` in chunks of one
block. -/
theorem range_walks_exactly_iff (keccak256 : String → String) {«from» «to» chunk_size : Nat}
    (hle : «from» ≤ «to») (hto : «to» ≤ u64_max) (hsize : 1 ≤ chunk_size)
    (hfits : chunk_size ≤ u64_max) :
    WalksExactly keccak256 «from» «to» chunk_size ↔
      ¬ («from» = 0 ∧ «to» = u64_max ∧ chunk_size = 1) := by
  rw [← chunk_count_le_iff hle hto hsize]
  have hlength := length_split_from hle hto hsize
  constructor
  · -- the count is computed before the first chunk
    intro h
    have hfetch := h.fetch idle_rpc "" .Auto none
    unfold Checked.fetch_logs_in_chunks_with_progress Checked.total_chunks at hfetch
    rw [if_neg (by omega), if_neg (by omega), bind_assoc, ends_fits_bind, bind_assoc,
      ends_fits_bind] at hfetch
    have hcount := hfetch.2.1
    omega
  · intro hcount
    refine ⟨?_, fun rpc contract standard prefetched_logs => ?_, fun rpc contract => ?_⟩
    · -- splitting: one turn for each chunk
      unfold Checked.split_inclusive_range
      rw [if_neg (by omega), if_neg (by omega), walk_eq _ hto hsize hfits, ends_bind]
      refine (push_chunks_ends _ _ _).mono ?_
      rintro result turns ⟨rfl, rfl⟩
      rw [after_ok, ends_pure, List.nil_append, split_inclusive_range_eq_ok hsize hle, hlength]
      exact ⟨rfl, by omega⟩
    · -- fetching: up to the first error
      unfold Checked.fetch_logs_in_chunks_with_progress fetch_logs_in_chunks Checked.total_chunks
      rw [if_neg (by omega), if_neg (by omega), if_neg (by omega), if_neg (by omega),
        fits_bind (by omega), fits_bind (by omega), pure_bind, walk_eq _ hto hsize hfits, ends_bind]
      refine (fetch_chunks_ends 0 [] prefetched_logs 0 (by omega)).mono ?_
      rintro result turns (⟨more, last_number, left, hmore, rfl, rfl⟩ | ⟨e, he, rfl, hturns⟩)
      · rw [hmore]
        exact ⟨rfl, by omega, fun _ _ => by omega⟩
      · rw [he]
        exact ⟨rfl, by omega, fun _ h => by cases h⟩
    · -- detection: up to the first error or the first standard found
      unfold Checked.detect_token_standard_with_prefetched_logs
        detect_token_standard_with_prefetched_logs Checked.total_chunks
      rw [if_neg (by omega), if_neg (by omega), if_neg (by omega), if_neg (by omega),
        fits_bind (by omega), fits_bind (by omega), pure_bind, walk_eq _ hto hsize hfits, ends_bind]
      refine (detect_in_chunks_ends 0 0 (by omega)).mono ?_
      rintro result turns (⟨last_number, hnone, rfl, rfl⟩ | ⟨detection, hfound, rfl, hturns⟩ |
        ⟨e, he, rfl, hturns⟩)
      · rw [hnone]
        exact ⟨rfl, by omega, fun _ => by omega⟩
      · rw [hfound]
        exact ⟨rfl, by omega, fun h => by cases h⟩
      · rw [he]
        exact ⟨rfl, by omega, fun h => by cases h⟩

theorem range_walks_exactly_iff_all_by_two :
    WalksExactly id 0 u64_max 2 ↔ ¬ (0 = 0 ∧ u64_max = u64_max ∧ 2 = 1) :=
  range_walks_exactly_iff id (by decide) (le_refl _) (by decide) (by decide)

/-- All of `u64` in chunks of one block is a range the entry checks admit. -/
theorem counting_all_blocks_overflows :
    ¬ ∀ (keccak256 : String → String) («from» «to» chunk_size : Nat), «from» ≤ «to» →
      «to» ≤ u64_max → 1 ≤ chunk_size → chunk_size ≤ u64_max →
      WalksExactly keccak256 «from» «to» chunk_size := by
  intro h
  have hfetch := (h id 0 u64_max 1 (by decide) (le_refl _) (le_refl _) (by decide)).fetch
    idle_rpc "" .Auto none
  unfold Checked.fetch_logs_in_chunks_with_progress Checked.total_chunks at hfetch
  rw [if_neg (by decide), if_neg (by decide), bind_assoc, ends_fits_bind, bind_assoc,
    ends_fits_bind] at hfetch
  exact absurd hfetch.2.1.2 (by decide)

end EvmIndexer
