/-
The decoder with its panics.

`Decoder` gives every slice of text an answer; here a slice panics where it cuts a
character, an `expect`, an index and an `unreachable!` panic where they are wrong, sums are
checked, and the reads of an array are counted. What is left of the panics are the slices:
the length of a topic and of the data is checked in bytes, but not that the text is hex, so
a character of several bytes may lie across the place of a cut. Each of these functions is
the one of `Decoder` behind a check of that (`topic_address_eq` and so on), and decoding
panics just where a check that is reached fails (`decoding_never_panics_iff`).
-/
import EvmIndexer.AbiEvents
import EvmIndexer.Backfill
import EvmIndexer.Standards
import EvmIndexer.Lib.Machine

set_option autoImplicit false

namespace EvmIndexer

open Machine

namespace Checked

section Decode

variable (keccak256 : String → String) (parse_bytes : List Char → Option Nat)

/-- A `usize` of a 64-bit target. -/
abbrev fits_usize (n : Int) : Counted String Unit := fits u64_max n

/-- `&text[start..stop]`. -/
def slice (text : List Char) (start stop : Nat) : Counted String (List Char) :=
  expect .Slice (byte_slice text start stop)

/-- `log.topics[index]`. -/
def topic (log : RpcLog) (index : Nat) : Counted String String := expect .Index log.topics[index]?

/-- `topic_address`. -/
def topic_address (topic : String) : Counted String String := do
  let topic ← lift (strip_0x topic)
  if byte_len topic ≠ 64 then lift (.error "topic must be 32 bytes")
  else do
    let address ← slice topic 24 64
    pure (to_ascii_lowercase (String.ofList ('0' :: 'x' :: address)))

/-- `word_at`. -/
def word_at (data : String) (index : Nat) : Counted String (List Char) := do
  let data ← lift (strip_0x data)
  fits_usize (index * 64 : Nat)
  fits_usize (index * 64 + 64 : Nat)
  if byte_len data < index * 64 + 64 then lift (.error s!"data does not contain word {index}")
  else slice data (index * 64) (index * 64 + 64)

/-- `decode_data_words`: 64 bytes are UTF-8 where they cut no character. -/
def decode_data_words (data : String) : Counted String (List (List Char)) := do
  let data ← lift (strip_0x data)
  if byte_len data % 64 ≠ 0 then
    lift (.error "ABI data length must be a multiple of 32 bytes")
  else (List.range (byte_len data / 64)).mapM fun i =>
    expect .Expect (byte_slice data (i * 64) (i * 64 + 64))

/-- The items of `decode_dynamic_uint_array`, from one index on: each is a read. -/
def decode_items (words : List (List Char)) (start : Nat) : Nat → Nat → Counted String (List String)
  | 0, _ => pure []
  | len + 1, index => do
    step
    fits_usize (start + 1 : Nat)
    fits_usize (start + 1 + index : Nat)
    match words[start + 1 + index]? with
    | none => lift (.error "dynamic array item out of bounds")
    | some word => do
      let item ← lift (decode_word_as_decimal parse_bytes word)
      let items ← decode_items words start len (index + 1)
      pure (item :: items)

/-- `decode_dynamic_uint_array`. -/
def decode_dynamic_uint_array (words : List (List Char)) (offset_bytes : Nat) :
    Counted String (List String) :=
  if offset_bytes % 32 ≠ 0 then lift (.error "dynamic array offset must be 32-byte aligned")
  else
    match words[offset_bytes / 32]? with
    | none => lift (.error "dynamic array length out of bounds")
    | some len_word => do
      let len ← lift (word_decimal_as_usize parse_bytes len_word)
      decode_items parse_bytes words (offset_bytes / 32) len 0

/-- `decode_transfer`. -/
def decode_transfer (log : RpcLog) (standard : TokenStandard) : Counted String DecodedLog := do
  let («from», «to», token_id, amount) ← (match standard with
    | .Erc20 => do
      lift (require_topic_count log 3)
      let amount ← lift (decode_word_as_decimal parse_bytes (← word_at log.data 0))
      let «from» ← topic_address (← topic log 1)
      let «to» ← topic_address (← topic log 2)
      pure («from», «to», "", amount)
    | .Erc721 => do
      lift (require_topic_count log 4)
      let «from» ← topic_address (← topic log 1)
      let «to» ← topic_address (← topic log 2)
      let token_id ← lift (decode_word_as_decimal parse_bytes (← lift (strip_0x (← topic log 3))))
      pure («from», «to», token_id, "1")
    | .Auto => throw (.panic .Unreachable)
    | .Erc1155 => throw (.panic .Unreachable) :
      Counted String (String × String × String × String))
  pure
    { event_name := "Transfer"
      entries :=
        [{ event_name := "Transfer"
           token_standard := standard
           operator := none
           «from»
           «to»
           token_id
           amount
           batch_index := 0 }] }

/-- `decode_transfer_single`. -/
def decode_transfer_single (log : RpcLog) : Counted String DecodedLog := do
  lift (require_topic_count log 4)
  let token_id ← lift (decode_word_as_decimal parse_bytes (← word_at log.data 0))
  let amount ← lift (decode_word_as_decimal parse_bytes (← word_at log.data 1))
  let operator ← topic_address (← topic log 1)
  let «from» ← topic_address (← topic log 2)
  let «to» ← topic_address (← topic log 3)
  pure
    { event_name := "TransferSingle"
      entries :=
        [{ event_name := "TransferSingle"
           token_standard := .Erc1155
           operator := some operator
           «from»
           «to»
           token_id
           amount
           batch_index := 0 }] }

/-- `decode_transfer_batch`. -/
def decode_transfer_batch (log : RpcLog) : Counted String DecodedLog := do
  lift (require_topic_count log 4)
  let data ← decode_data_words log.data
  match data with
  | [] => lift (.error "missing ids offset")
  | ids_word :: rest => do
    let ids_offset ← lift (word_decimal_as_usize parse_bytes ids_word)
    match rest with
    | [] => lift (.error "missing amounts offset")
    | amounts_word :: _ => do
      let amounts_offset ← lift (word_decimal_as_usize parse_bytes amounts_word)
      let ids ← decode_dynamic_uint_array parse_bytes data ids_offset
      let amounts ← decode_dynamic_uint_array parse_bytes data amounts_offset
      if ids.length ≠ amounts.length then
        lift (.error ("TransferBatch ids/amounts length mismatch: " ++ toString ids.length ++
          " != " ++ toString amounts.length))
      else do
        let operator ← topic_address (← topic log 1)
        let «from» ← topic_address (← topic log 2)
        let «to» ← topic_address (← topic log 3)
        pure
          { event_name := "TransferBatch"
            entries := batch_entries operator «from» «to» ids amounts }

/-- `detect_token_standard_from_log`: it measures the data, and slices nothing. -/
def detect_token_standard_from_log (log : RpcLog) : Counted String (Option TokenStandard) :=
  lift (EvmIndexer.detect_token_standard_from_log keccak256 log)

/-- `decode_log`, once the standard is known. -/
def decode_log_as (log : RpcLog) (standard : TokenStandard) :
    Counted String (Option DecodedLog) :=
  match log.topics with
  | [] => pure none
  | topic0 :: _ =>
    let topic0 := to_ascii_lowercase topic0
    if topic0 = transfer keccak256 ∧ (standard = .Erc20 ∨ standard = .Erc721) then do
      lift (validate_transfer_shape_matches_standard keccak256 log standard)
      let decoded ← decode_transfer parse_bytes log standard
      pure (some decoded)
    else if topic0 = transfer_single keccak256 ∧ standard = .Erc1155 then do
      let decoded ← decode_transfer_single parse_bytes log
      pure (some decoded)
    else if topic0 = transfer_batch keccak256 ∧ standard = .Erc1155 then do
      let decoded ← decode_transfer_batch parse_bytes log
      pure (some decoded)
    else pure none

/-- `decode_log`. -/
def decode_log (log : RpcLog) (standard : TokenStandard) : Counted String (Option DecodedLog) :=
  if standard.is_auto then do
    match ← detect_token_standard_from_log keccak256 log with
    | none => pure none
    | some detected => decode_log_as keccak256 parse_bytes log detected
  else decode_log_as keccak256 parse_bytes log standard

end Decode

end Checked

/-! ## Where a slice is taken

Each check of the decoder is on lengths in bytes, and each cut is at a fixed byte. So a cut
can be predicted from the text alone: `cuts_topic`, `cuts_word` and `cuts_data` say that a
text passes the length check and has a character across the place of the cut.
-/

/-- The topic is as long as one, and its byte 24 is in the middle of a character. -/
def cuts_topic (topic : String) : Bool :=
  match strip_0x topic with
  | .ok text => byte_len text == 64 && !is_char_boundary text 24
  | .error _ => false

/-- The data has the word, and it begins or ends in the middle of a character. -/
def cuts_word (data : String) (index : Nat) : Bool :=
  match strip_0x data with
  | .ok text =>
    decide (index * 64 + 64 ≤ byte_len text) &&
      !(is_char_boundary text (index * 64) && is_char_boundary text (index * 64 + 64))
  | .error _ => false

/-- The data is of whole words, and one of them begins or ends in the middle of a character. -/
def cuts_data (data : String) : Bool :=
  match strip_0x data with
  | .ok text =>
    byte_len text % 64 == 0 && (List.range (byte_len text / 64)).any fun i =>
      !(is_char_boundary text (i * 64) && is_char_boundary text (i * 64 + 64))
  | .error _ => false

/-- A slice is the one that gives an answer, behind a check of its ends. -/
theorem slice_eq {text : List Char} {start stop : Nat} (hle : start ≤ stop) :
    Checked.slice text start stop = (do
      assert .Slice (is_char_boundary text start && is_char_boundary text stop)
      lift (slice text start stop)) := by
  unfold Checked.slice
  rw [← byte_slice_isSome hle]
  refine expect_eq .Slice fun part hpart => ?_
  unfold slice
  rw [hpart]

/-- `topic_address`, behind its check. -/
theorem topic_address_eq (topic : String) :
    Checked.topic_address topic = (do
      assert .Slice (!cuts_topic topic)
      lift (topic_address topic)) := by
  unfold Checked.topic_address topic_address cuts_topic
  cases strip_0x topic with
  | error e => rfl
  | ok text =>
    rw [lift_ok, pure_bind, ok_bind]
    dsimp only
    by_cases hlen : byte_len text = 64
    · -- the slice ends where the topic does
      have hend : is_char_boundary text 64 = true := by
        rw [← hlen]
        exact is_char_boundary_byte_len text
      rw [if_neg (not_not.2 hlen), if_neg (not_not.2 hlen), slice_eq (by decide), hend, hlen,
        beq_self_eq_true, Bool.true_and, Bool.not_not, Bool.and_true, bind_assoc, lift_bind]
      rfl
    · rw [if_pos hlen, if_pos hlen, beq_eq_false_iff_ne.2 hlen]
      rfl

/-- `word_at`, behind its check. -/
theorem word_at_eq (data : String) {index : Nat} (hindex : index * 64 + 64 ≤ u64_max) :
    Checked.word_at data index = (do
      assert .Slice (!cuts_word data index)
      lift (word_at data index)) := by
  unfold Checked.word_at word_at cuts_word
  cases strip_0x data with
  | error e => rfl
  | ok text =>
    rw [lift_ok, pure_bind, ok_bind, fits_bind (by omega), fits_bind (by omega)]
    dsimp only
    by_cases hshort : byte_len text < index * 64 + 64
    · rw [if_pos hshort, if_pos hshort, decide_eq_false (not_le.2 hshort)]
      rfl
    · rw [if_neg hshort, if_neg hshort, decide_eq_true (not_lt.1 hshort), slice_eq (by omega),
        Bool.true_and, Bool.not_not]

/-- Expecting a value for each is taking their answers, behind a check that all are there. -/
theorem expect_all_eq {α : Type} {f : Nat → Option α} {answer : Nat → Result α}
    (h : ∀ i b, f i = some b → answer i = .ok b) (indices : List Nat) :
    indices.mapM (fun i => expect .Expect (f i)) = (do
      assert .Expect (indices.all fun i => (f i).isSome)
      lift (indices.mapM answer)) := by
  induction indices with
  | nil => rfl
  | cons i rest ih =>
    rw [List.mapM_cons, List.mapM_cons, List.all_cons, ih, expect_eq .Expect (h i)]
    cases hi : f i with
    | none => rfl
    | some b =>
      rw [h i b hi, Option.isSome_some, Bool.true_and, assert_true_bind, lift_ok, pure_bind, ok_bind]
      cases rest.all fun i => (f i).isSome with
      | false => rfl
      | true =>
        rw [assert_true_bind, assert_true_bind, lift_bind]
        rfl

/-- `decode_data_words`, behind its check. The words are sliced one after the other, and the
first one that cuts a character panics; which one it is makes no difference to the outcome.
-/
theorem decode_data_words_eq (data : String) :
    Checked.decode_data_words data = (do
      assert .Expect (!cuts_data data)
      lift (decode_data_words data)) := by
  unfold Checked.decode_data_words decode_data_words cuts_data
  cases strip_0x data with
  | error e => rfl
  | ok text =>
    rw [lift_ok, pure_bind, ok_bind]
    dsimp only
    by_cases hlen : byte_len text % 64 = 0
    · have hslice : ∀ i part, byte_slice text (i * 64) (i * 64 + 64) = some part →
          slice text (i * 64) (i * 64 + 64) = .ok part := by
        intro i part hpart
        unfold slice
        rw [hpart]
      -- every slice is there just if no word ends inside a character
      have hall : ((List.range (byte_len text / 64)).all fun i =>
          (byte_slice text (i * 64) (i * 64 + 64)).isSome)
          = !((List.range (byte_len text / 64)).any fun i =>
            !(is_char_boundary text (i * 64) && is_char_boundary text (i * 64 + 64))) := by
        rw [List.not_any_eq_all_not]
        refine congrArg (List.all _) (funext fun i => ?_)
        rw [byte_slice_isSome (Nat.le_add_right _ _), Bool.not_not]
      rw [if_neg (not_not.2 hlen), if_neg (not_not.2 hlen), expect_all_eq hslice, hall, hlen,
        beq_self_eq_true, Bool.true_and]
    · rw [if_pos hlen, if_pos hlen, beq_eq_false_iff_ne.2 hlen]
      rfl

/-! ## The reads of an array

The length word of an array is data, and may say any number up to the width of a `usize`. The
loop stops at the first word that is not there, so it reads no more than the words there are,
and one that fails.
-/

section Arrays

variable (parse_bytes : List Char → Option Nat) {words : List (List Char)}

/-- The items are read until their words end, so their number is no bound on the reads. -/
theorem decode_items_eq (hwords : words.length ≤ u64_max) (start index : Nat)
    (hindex : start + 1 + index ≤ words.length) (len : Nat) :
    ∃ reads ≤ words.length - (start + 1 + index) + 1,
      Checked.decode_items parse_bytes words start len index = (do
        steps reads
        lift (decode_items parse_bytes len (words.drop (start + 1 + index)))) := by
  induction len generalizing index with
  | zero =>
    rw [Checked.decode_items, decode_items]
    exact ⟨0, Nat.zero_le _, rfl⟩
  | succ len ih =>
    rw [Checked.decode_items, fits_bind (by omega), fits_bind (by omega)]
    cases hword : words[start + 1 + index]? with
    -- the words have ended
    | none =>
      rw [List.drop_eq_nil_of_le (List.getElem?_eq_none_iff.1 hword)]
      exact ⟨1, by omega, rfl⟩
    | some word =>
      obtain ⟨hlt, hget⟩ := List.getElem?_eq_some_iff.1 hword
      rw [List.drop_eq_getElem_cons hlt, hget, decode_items]
      dsimp only
      cases decode_word_as_decimal parse_bytes word with
      | error e => exact ⟨1, by omega, rfl⟩
      | ok item =>
        -- one read, and those of the rest
        obtain ⟨reads, hreads, hrest⟩ := ih (index + 1) (by omega)
        refine ⟨reads + 1, by omega, ?_⟩
        rw [lift_ok, pure_bind, hrest, bind_assoc, ok_bind, ← step_steps_bind]
        refine bind_congr fun _ => bind_congr fun _ => ?_
        rw [lift_bind]
        rfl

/-- `decode_dynamic_uint_array`, and what it reads. The index of an item cannot overflow: it
is counted from a word of the data, and the loop ends with an error at the first one past the
words, however large the length is. -/
theorem decode_dynamic_uint_array_eq (hwords : words.length ≤ u64_max)
    (offset_bytes : Nat) :
    ∃ reads ≤ words.length + 1,
      Checked.decode_dynamic_uint_array parse_bytes words offset_bytes = (do
        steps reads
        lift (decode_dynamic_uint_array parse_bytes words offset_bytes)) := by
  unfold Checked.decode_dynamic_uint_array decode_dynamic_uint_array
  -- an offset between two words ends both before any read
  by_cases haligned : offset_bytes % 32 = 0
  · rw [if_neg (not_not.2 haligned), if_neg (not_not.2 haligned)]
    cases hword : words[offset_bytes / 32]? with
    | none =>
      rw [List.drop_eq_nil_of_le (List.getElem?_eq_none_iff.1 hword)]
      exact ⟨0, Nat.zero_le _, rfl⟩
    | some len_word =>
      obtain ⟨hlt, hget⟩ := List.getElem?_eq_some_iff.1 hword
      rw [List.drop_eq_getElem_cons hlt, hget]
      dsimp only
      cases word_decimal_as_usize parse_bytes len_word with
      | error e => exact ⟨0, Nat.zero_le _, rfl⟩
      | ok len =>
        obtain ⟨reads, hreads, hitems⟩ :=
          decode_items_eq parse_bytes hwords (offset_bytes / 32) 0 (by omega) len
        refine ⟨reads, by omega, ?_⟩
        rw [lift_ok, pure_bind, hitems, ok_bind]
  · rw [if_pos haligned, if_pos haligned]
    exact ⟨0, Nat.zero_le _, rfl⟩

end Arrays

/-! ## The slices that are reached

An error before a slice keeps it from being reached, and then it cannot panic. So for each
event the condition follows the order of the code: the words that are read first, and after
them the topics, each only if what is before it was read.
-/

/-- No topic is cut in the middle of a character, up to the first that is no address. -/
def TopicsKept : List String → Prop
  | [] => True
  | topic :: rest =>
    cuts_topic topic = false ∧ ∀ address, topic_address topic = .ok address → TopicsKept rest

section Reached

variable {parse_bytes : List Char → Option Nat} {log : RpcLog}

/-- The word is there and a number. -/
def ReadsWord (parse_bytes : List Char → Option Nat) (data : String) (index : Nat) : Prop :=
  ∃ word value, word_at data index = .ok word ∧
    decode_word_as_decimal parse_bytes word = .ok value

section Ends

variable {α : Type} {n : Nat} {Q : Result α → Nat → Prop}

theorem ends_topic_address_bind {topic : String} {f : String → Counted String α} :
    Ends (Checked.topic_address topic >>= f) n Q ↔
      cuts_topic topic = false ∧
        After (topic_address topic) (fun address => Ends (f address) n Q)
          fun e => Q (.error e) n := by
  rw [topic_address_eq, bind_assoc, ends_assert_bind, ends_lift_bind, Bool.not_eq_true']

theorem ends_word_at_bind {data : String} {index : Nat} (hindex : index * 64 + 64 ≤ u64_max)
    {f : List Char → Counted String α} :
    Ends (Checked.word_at data index >>= f) n Q ↔
      cuts_word data index = false ∧
        After (word_at data index) (fun word => Ends (f word) n Q) fun e => Q (.error e) n := by
  rw [word_at_eq data hindex, bind_assoc, ends_assert_bind, ends_lift_bind, Bool.not_eq_true']

theorem topic_eq {index : Nat} {topic : String} (h : log.topics[index]? = some topic) :
    log.topic index = topic := by
  unfold RpcLog.topic
  rw [List.getD_eq_getElem?_getD, h, Option.getD_some]

theorem require_topic_count_eq {topics : List String} (h : log.topics = topics) :
    require_topic_count log topics.length = .ok () := by
  unfold require_topic_count
  rw [h, if_neg (not_not.2 rfl)]

theorem topic_bind {index : Nat} {topic : String} (h : log.topics[index]? = some topic)
    (f : String → Counted String α) : (Checked.topic log index >>= f) = f topic := by
  unfold Checked.topic
  rw [h]
  rfl

/-- The three topics of an ERC-1155 event, read in order. -/
theorem ends_three_topics {topic1 topic2 topic3 : String} {event : String → String → String → α} :
    Ends (do
        let operator ← Checked.topic_address topic1
        let «from» ← Checked.topic_address topic2
        let «to» ← Checked.topic_address topic3
        pure (event operator «from» «to»)) n Q ↔
      TopicsKept [topic1, topic2, topic3] ∧
        Q (do
          let operator ← topic_address topic1
          let «from» ← topic_address topic2
          let «to» ← topic_address topic3
          .ok (event operator «from» «to»)) n := by
  simp only [TopicsKept]
  rw [ends_topic_address_bind]
  cases topic_address topic1 with
  | error e => simp [bind, Except.bind]
  | ok operator =>
    rw [ok_bind, after_ok, ends_topic_address_bind]
    cases topic_address topic2 with
    | error e => simp [bind, Except.bind, and_assoc]
    | ok «from» =>
      rw [ok_bind, after_ok, ends_topic_address_bind]
      cases topic_address topic3 with
      | error e => simp [bind, Except.bind, and_assoc]
      | ok «to» =>
        rw [ok_bind, after_ok, ends_pure]
        simp [and_assoc]

/-- The two topics of a `Transfer`, read in order. -/
theorem ends_two_topics {topic1 topic2 : String} {f : String → String → Result α} :
    Ends (do
        let «from» ← Checked.topic_address topic1
        let «to» ← Checked.topic_address topic2
        lift (f «from» «to»)) n Q ↔
      TopicsKept [topic1, topic2] ∧
        Q (do
          let «from» ← topic_address topic1
          let «to» ← topic_address topic2
          f «from» «to») n := by
  simp only [TopicsKept]
  rw [ends_topic_address_bind]
  cases topic_address topic1 with
  | error e => simp [bind, Except.bind]
  | ok «from» =>
    rw [ok_bind, after_ok, ends_topic_address_bind]
    cases topic_address topic2 with
    | error e => simp [bind, Except.bind, and_assoc]
    | ok «to» =>
      rw [ok_bind, after_ok, ends_lift]
      simp [and_assoc]

/-- A word that is read as a number, or the rest is not reached. -/
theorem ends_word_bind {data : String} {index : Nat} (hindex : index * 64 + 64 ≤ u64_max)
    {f : String → Counted String α} {g : String → Result α} {kept : Prop}
    (hf : ∀ value, Ends (f value) n Q ↔ kept ∧ Q (g value) n) :
    Ends (Checked.word_at data index >>= fun word =>
        lift (decode_word_as_decimal parse_bytes word) >>= f) n Q ↔
      (cuts_word data index = false ∧ (ReadsWord parse_bytes data index → kept)) ∧
        Q (word_at data index >>= fun word => decode_word_as_decimal parse_bytes word >>= g) n := by
  rw [ends_word_at_bind hindex]
  unfold ReadsWord
  cases word_at data index with
  | error e => simp [bind, Except.bind]
  | ok word =>
    rw [ok_bind, after_ok, ends_lift_bind]
    cases hvalue : decode_word_as_decimal parse_bytes word with
    | error e => simp [hvalue, bind, Except.bind]
    | ok value =>
      rw [ok_bind, after_ok, hf]
      simp [hvalue, and_assoc]

/-- `TransferSingle` slices its two words and three topics. -/
theorem ends_decode_transfer_single {Q : Result DecodedLog → Nat → Prop}
    {topic0 topic1 topic2 topic3 : String} (htopics : log.topics = [topic0, topic1, topic2, topic3]) :
    Ends (Checked.decode_transfer_single parse_bytes log) n Q ↔
      (cuts_word log.data 0 = false ∧ (ReadsWord parse_bytes log.data 0 →
        cuts_word log.data 1 = false ∧ (ReadsWord parse_bytes log.data 1 →
          TopicsKept [topic1, topic2, topic3]))) ∧
        Q (decode_transfer_single parse_bytes log) n := by
  have hcount : require_topic_count log 4 = .ok () := require_topic_count_eq htopics
  have htopic1 : log.topics[1]? = some topic1 := by rw [htopics]; rfl
  have htopic2 : log.topics[2]? = some topic2 := by rw [htopics]; rfl
  have htopic3 : log.topics[3]? = some topic3 := by rw [htopics]; rfl
  unfold Checked.decode_transfer_single decode_transfer_single
  rw [hcount, lift_ok, pure_bind, ok_bind, topic_eq htopic1, topic_eq htopic2, topic_eq htopic3]
  refine ends_word_bind (by decide) fun token_id => ends_word_bind (by decide) fun amount => ?_
  simp only [topic_bind htopic1, topic_bind htopic2, topic_bind htopic3]
  exact ends_three_topics

/-- An ERC-20 `Transfer` slices its word and two topics. -/
theorem ends_decode_transfer_erc20 {Q : Result DecodedLog → Nat → Prop}
    {topic0 topic1 topic2 : String} (htopics : log.topics = [topic0, topic1, topic2]) :
    Ends (Checked.decode_transfer parse_bytes log .Erc20) n Q ↔
      (cuts_word log.data 0 = false ∧ (ReadsWord parse_bytes log.data 0 →
        TopicsKept [topic1, topic2])) ∧ Q (decode_transfer parse_bytes log .Erc20) n := by
  have hcount : require_topic_count log 3 = .ok () := require_topic_count_eq htopics
  have htopic1 : log.topics[1]? = some topic1 := by rw [htopics]; rfl
  have htopic2 : log.topics[2]? = some topic2 := by rw [htopics]; rfl
  unfold Checked.decode_transfer decode_transfer
  dsimp only
  rw [hcount, lift_ok, pure_bind, ok_bind, topic_eq htopic1, topic_eq htopic2]
  simp only [bind_assoc, topic_bind htopic1, topic_bind htopic2, pure_bind, ok_bind]
  refine ends_word_bind (by decide) fun amount => ?_
  simp only [← lift_ok]
  exact ends_two_topics

/-- An ERC-721 `Transfer` slices two topics. -/
theorem ends_decode_transfer_erc721 {Q : Result DecodedLog → Nat → Prop}
    {topic0 topic1 topic2 topic3 : String} (htopics : log.topics = [topic0, topic1, topic2, topic3]) :
    Ends (Checked.decode_transfer parse_bytes log .Erc721) n Q ↔
      TopicsKept [topic1, topic2] ∧ Q (decode_transfer parse_bytes log .Erc721) n := by
  have hcount : require_topic_count log 4 = .ok () := require_topic_count_eq htopics
  have htopic1 : log.topics[1]? = some topic1 := by rw [htopics]; rfl
  have htopic2 : log.topics[2]? = some topic2 := by rw [htopics]; rfl
  have htopic3 : log.topics[3]? = some topic3 := by rw [htopics]; rfl
  unfold Checked.decode_transfer decode_transfer
  dsimp only
  rw [hcount, lift_ok, pure_bind, ok_bind, topic_eq htopic1, topic_eq htopic2, topic_eq htopic3]
  simp only [bind_assoc, topic_bind htopic1, topic_bind htopic2, topic_bind htopic3, pure_bind,
    ok_bind]
  rw [← ends_two_topics]
  simp only [lift_bind, lift_ok]

end Ends

/-- The two arrays in the words of a batch. -/
def batch_arrays (parse_bytes : List Char → Option Nat) (words : List (List Char)) :
    Result (List String × List String) :=
  match words with
  | [] => .error "missing ids offset"
  | ids_word :: rest => do
    let ids_offset ← word_decimal_as_usize parse_bytes ids_word
    match rest with
    | [] => .error "missing amounts offset"
    | amounts_word :: _ =>
      let amounts_offset ← word_decimal_as_usize parse_bytes amounts_word
      let ids ← decode_dynamic_uint_array parse_bytes words ids_offset
      let amounts ← decode_dynamic_uint_array parse_bytes words amounts_offset
      if ids.length ≠ amounts.length then
        .error ("TransferBatch ids/amounts length mismatch: " ++ toString ids.length ++ " != " ++
          toString amounts.length)
      else .ok (ids, amounts)

/-- The two arrays, with the reads of their items. -/
def Checked.batch_arrays (parse_bytes : List Char → Option Nat) (words : List (List Char)) :
    Counted String (List String × List String) :=
  match words with
  | [] => lift (.error "missing ids offset")
  | ids_word :: rest => do
    let ids_offset ← lift (word_decimal_as_usize parse_bytes ids_word)
    match rest with
    | [] => lift (.error "missing amounts offset")
    | amounts_word :: _ => do
      let amounts_offset ← lift (word_decimal_as_usize parse_bytes amounts_word)
      let ids ← Checked.decode_dynamic_uint_array parse_bytes words ids_offset
      let amounts ← Checked.decode_dynamic_uint_array parse_bytes words amounts_offset
      if ids.length ≠ amounts.length then
        lift (.error ("TransferBatch ids/amounts length mismatch: " ++ toString ids.length ++
          " != " ++ toString amounts.length))
      else pure (ids, amounts)

theorem batch_arrays_eq (parse_bytes : List Char → Option Nat) {words : List (List Char)}
    (hwords : words.length ≤ u64_max) :
    ∃ reads ≤ 2 * (words.length + 1),
      Checked.batch_arrays parse_bytes words = (do
        steps reads
        lift (batch_arrays parse_bytes words)) := by
  unfold Checked.batch_arrays batch_arrays
  -- each word that is missing or does not fit ends both alike
  cases words with
  | nil => exact ⟨0, Nat.zero_le _, rfl⟩
  | cons ids_word rest =>
    dsimp only
    cases word_decimal_as_usize parse_bytes ids_word with
    | error e => exact ⟨0, Nat.zero_le _, rfl⟩
    | ok ids_offset =>
      rw [lift_ok, pure_bind, ok_bind]
      cases rest with
      | nil => exact ⟨0, Nat.zero_le _, rfl⟩
      | cons amounts_word tail =>
        dsimp only
        cases word_decimal_as_usize parse_bytes amounts_word with
        | error e => exact ⟨0, Nat.zero_le _, rfl⟩
        | ok amounts_offset =>
          rw [lift_ok, pure_bind, ok_bind]
          obtain ⟨j, hj, hids⟩ := decode_dynamic_uint_array_eq parse_bytes hwords ids_offset
          obtain ⟨k, hk, hamounts⟩ := decode_dynamic_uint_array_eq parse_bytes hwords amounts_offset
          rw [hids, hamounts, bind_assoc]
          cases decode_dynamic_uint_array parse_bytes _ ids_offset with
          | error e => exact ⟨j, by omega, rfl⟩
          | ok ids =>
            -- the reads of the two arrays add up
            refine ⟨j + k, by omega, ?_⟩
            rw [ok_bind, ← steps_steps_bind]
            refine bind_congr fun _ => ?_
            rw [lift_ok, pure_bind, bind_assoc]
            refine bind_congr fun _ => ?_
            rw [lift_bind]
            refine bind_congr fun amounts => ?_
            split <;> rfl

/-- `decode_transfer_batch` reads the arrays, and then the topics. So where an array is
malformed, no topic is sliced and none can panic. -/
theorem decode_transfer_batch_eq {topic1 topic2 topic3 : String}
    (hcount : require_topic_count log 4 = .ok ()) (htopic1 : log.topic 1 = topic1)
    (htopic2 : log.topic 2 = topic2) (htopic3 : log.topic 3 = topic3) :
    decode_transfer_batch parse_bytes log = (do
      let words ← decode_data_words log.data
      let arrays ← batch_arrays parse_bytes words
      let operator ← topic_address topic1
      let «from» ← topic_address topic2
      let «to» ← topic_address topic3
      .ok { event_name := "TransferBatch"
            entries := batch_entries operator «from» «to» arrays.1 arrays.2 }) := by
  unfold decode_transfer_batch batch_arrays
  rw [hcount, ok_bind, htopic1, htopic2, htopic3]
  refine bind_congr fun words => ?_
  cases words with
  | nil => rfl
  | cons ids_word rest =>
    simp only [bind_assoc]
    refine bind_congr fun ids_offset => ?_
    cases rest with
    | nil => rfl
    | cons amounts_word tail =>
      simp only [bind_assoc]
      refine bind_congr fun amounts_offset => bind_congr fun ids => bind_congr fun amounts => ?_
      split <;> rfl

theorem Checked.decode_transfer_batch_eq {topic1 topic2 topic3 : String}
    (hcount : require_topic_count log 4 = .ok ()) (htopic1 : log.topics[1]? = some topic1)
    (htopic2 : log.topics[2]? = some topic2) (htopic3 : log.topics[3]? = some topic3) :
    Checked.decode_transfer_batch parse_bytes log = (do
      let words ← Checked.decode_data_words log.data
      let arrays ← Checked.batch_arrays parse_bytes words
      let operator ← Checked.topic_address topic1
      let «from» ← Checked.topic_address topic2
      let «to» ← Checked.topic_address topic3
      pure { event_name := "TransferBatch"
             entries := batch_entries operator «from» «to» arrays.1 arrays.2 }) := by
  unfold Checked.decode_transfer_batch Checked.batch_arrays
  rw [hcount, lift_ok, pure_bind]
  simp only [topic_bind htopic1, topic_bind htopic2, topic_bind htopic3]
  refine bind_congr fun words => ?_
  cases words with
  | nil => rfl
  | cons ids_word rest =>
    simp only [bind_assoc]
    refine bind_congr fun ids_offset => ?_
    cases rest with
    | nil => rfl
    | cons amounts_word tail =>
      simp only [bind_assoc]
      refine bind_congr fun amounts_offset => bind_congr fun ids => bind_congr fun amounts => ?_
      split <;> rfl

theorem byte_len_strip_0x {value : String} {text : List Char} (h : strip_0x value = .ok text) :
    byte_len text ≤ byte_len value.toList := by
  unfold strip_0x at h
  unfold byte_len
  split at h
  · rename_i hvalue
    cases h
    rw [hvalue, List.map_cons, List.map_cons, List.sum_cons, List.sum_cons]
    omega
  · rename_i hvalue
    cases h
    rw [hvalue, List.map_cons, List.map_cons, List.sum_cons, List.sum_cons]
    omega
  · cases h

/-- The words of the data are as many as fit it. -/
theorem length_decode_data_words {data : String} {words : List (List Char)}
    (h : decode_data_words data = .ok words) : words.length ≤ byte_len data.toList / 64 := by
  unfold decode_data_words at h
  rw [bind_eq_ok] at h
  obtain ⟨text, htext, h⟩ := h
  rw [bail_eq_ok] at h
  have hlengths := congrArg List.length
    (map_eq_of_mapM (g := fun _ => ()) (k := fun _ => ()) h.2 fun _ _ _ => rfl)
  rw [List.length_map, List.length_map, List.length_range] at hlengths
  have hshorter := byte_len_strip_0x htext
  rw [hlengths]
  exact Nat.div_le_div_right hshorter

/-- `TransferBatch` slices its words and three topics, and reads no more items than its two
arrays have words. -/
theorem ends_decode_transfer_batch {topic0 topic1 topic2 topic3 : String}
    (htopics : log.topics = [topic0, topic1, topic2, topic3])
    (hdata : byte_len log.data.toList ≤ u64_max) :
    ∃ reads ≤ 2 * (byte_len log.data.toList / 64 + 1), ∀ Q : Result DecodedLog → Nat → Prop,
      Ends (Checked.decode_transfer_batch parse_bytes log) 0 Q ↔
        (cuts_data log.data = false ∧
          ((∃ arrays, (decode_data_words log.data >>= batch_arrays parse_bytes) = .ok arrays) →
            TopicsKept [topic1, topic2, topic3])) ∧
        Q (decode_transfer_batch parse_bytes log) reads := by
  have hcount : require_topic_count log 4 = .ok () := require_topic_count_eq htopics
  have htopic1 : log.topics[1]? = some topic1 := by rw [htopics]; rfl
  have htopic2 : log.topics[2]? = some topic2 := by rw [htopics]; rfl
  have htopic3 : log.topics[3]? = some topic3 := by rw [htopics]; rfl
  rw [Checked.decode_transfer_batch_eq hcount htopic1 htopic2 htopic3, decode_transfer_batch_eq hcount
    (topic_eq htopic1) (topic_eq htopic2) (topic_eq htopic3), decode_data_words_eq, bind_assoc]
  simp only [ends_assert_bind, ends_lift_bind, Bool.not_eq_true']
  cases hwords : decode_data_words log.data with
  | error e => exact ⟨0, Nat.zero_le _, fun Q => by simp [bind, Except.bind]⟩
  | ok words =>
    have hlength := length_decode_data_words hwords
    -- a word is 64 bytes of the data, which bounds the reads
    obtain ⟨reads, hreads, harrays⟩ := batch_arrays_eq parse_bytes (show words.length ≤ u64_max by omega)
    refine ⟨reads, by omega, fun Q => ?_⟩
    rw [ok_bind, ok_bind, after_ok, harrays, bind_assoc, ends_steps_bind, ends_lift_bind, Nat.zero_add]
    cases batch_arrays parse_bytes words with
    | error e => simp [bind, Except.bind]
    | ok arrays =>
      rw [after_ok, ok_bind, ends_three_topics]
      simp [and_assoc]

/-! ## The shape of a `Transfer`

Which of two decoders a `Transfer` goes to is decided by the number of topics and of words,
and so is which of its slices are taken.
-/

theorem detect_eq_erc20 {keccak256 : String → String}
    (h : detect_token_standard_from_log keccak256 log = .ok (some .Erc20)) :
    log.topics.length = 3 ∧ data_word_count log.data = .ok 1 := by
  unfold detect_token_standard_from_log at h
  split at h
  · cases h
  · simp only at h
    split at h
    · cases h
    · split at h
      · rw [bind_eq_ok] at h
        obtain ⟨data_words, hwords, h⟩ := h
        split at h
        · cases h
        · rename_i hlength
          exact ⟨hlength, hwords⟩
        · cases h
      · cases h

theorem detect_eq_erc721 {keccak256 : String → String}
    (h : detect_token_standard_from_log keccak256 log = .ok (some .Erc721)) :
    log.topics.length = 4 := by
  unfold detect_token_standard_from_log at h
  split at h
  · cases h
  · simp only at h
    split at h
    · cases h
    · split at h
      · rw [bind_eq_ok] at h
        obtain ⟨data_words, hwords, h⟩ := h
        split at h
        · rename_i hlength
          exact hlength
        · cases h
        · cases h
      · cases h

/-- Data of one word is not cut by reading it. -/
theorem cuts_word_of_one {data : String} (h : data_word_count data = .ok 1) :
    cuts_word data 0 = false := by
  unfold data_word_count at h
  rw [bind_eq_ok] at h
  obtain ⟨text, htext, h⟩ := h
  rw [bail_eq_ok] at h
  have hword : byte_len text / 64 = 1 := Except.ok.inj h.2
  have hlen : byte_len text = 64 := by omega
  have hbegin : is_char_boundary text 0 = true := by
    unfold is_char_boundary
    cases text <;> rfl
  have hend : is_char_boundary text 64 = true := by
    rw [← hlen]
    exact is_char_boundary_byte_len text
  unfold cuts_word
  rw [htext]
  simp only [Nat.zero_mul, Nat.zero_add, hbegin, hend]
  simp

end Reached

/-! ## When decoding panics

The condition is on the log alone and can be evaluated. Where it fails the decoder panics and
returns no error, so nothing that handles errors sees it.
-/

section Decoding

variable (keccak256 : String → String) (parse_bytes : List Char → Option Nat) (log : RpcLog)

/-- No slice that decoding under the standard reaches cuts a character. The topics are read
last, after the data but for an ERC-721 `Transfer`. -/
def KeepsCharactersAs (standard : TokenStandard) : Prop :=
  match log.topics with
  | [] => True
  | topic0 :: topics =>
    let topic0 := to_ascii_lowercase topic0
    if topic0 = transfer keccak256 ∧ (standard = .Erc20 ∨ standard = .Erc721) then
      detect_token_standard_from_log keccak256 log = .ok (some standard) →
        (standard = .Erc20 → ReadsWord parse_bytes log.data 0) → TopicsKept (topics.take 2)
    else if topic0 = transfer_single keccak256 ∧ standard = .Erc1155 then
      topics.length = 3 →
        cuts_word log.data 0 = false ∧ (ReadsWord parse_bytes log.data 0 →
          cuts_word log.data 1 = false ∧ (ReadsWord parse_bytes log.data 1 → TopicsKept topics))
    else if topic0 = transfer_batch keccak256 ∧ standard = .Erc1155 then
      topics.length = 3 →
        cuts_data log.data = false ∧
          ((∃ arrays, (decode_data_words log.data >>= batch_arrays parse_bytes) = .ok arrays) →
            TopicsKept topics)
    else True

/-- No slice that decoding reaches cuts a character. With `Auto` the standard is the one
detected, and detection itself slices nothing. -/
def KeepsCharacters (standard : TokenStandard) : Prop :=
  if standard.is_auto then
    ∀ detected, detect_token_standard_from_log keccak256 log = .ok (some detected) →
      KeepsCharactersAs keccak256 parse_bytes log detected
  else KeepsCharactersAs keccak256 parse_bytes log standard

/-- Decoding and detection end without a panic, in what the model without panics returns, and
the items of an array are read at most as often as there are words, and once more. -/
structure NeverPanics (standard : TokenStandard) : Prop where
  detects : Ends (Checked.detect_token_standard_from_log keccak256 log) 0 fun result _ =>
    result = detect_token_standard_from_log keccak256 log
  decodes : Ends (Checked.decode_log keccak256 parse_bytes log standard) 0 fun result reads =>
    result = decode_log keccak256 parse_bytes log standard ∧
      reads ≤ 2 * (byte_len log.data.toList / 64 + 1)
  reads : ∀ words offset_bytes, decode_data_words log.data = .ok words →
    Ends (Checked.decode_dynamic_uint_array parse_bytes words offset_bytes) 0 fun result reads =>
      result = decode_dynamic_uint_array parse_bytes words offset_bytes ∧ reads ≤ words.length + 1

variable {keccak256 parse_bytes log}

theorem validate_of_detect {standard : TokenStandard}
    (h : detect_token_standard_from_log keccak256 log = .ok (some standard)) :
    validate_transfer_shape_matches_standard keccak256 log standard = .ok () := by
  unfold validate_transfer_shape_matches_standard
  rw [h, ok_bind]
  exact if_neg (not_not.2 rfl)

theorem ends_decode_log_as (hdata : byte_len log.data.toList ≤ u64_max) (standard : TokenStandard) :
    ∃ reads ≤ 2 * (byte_len log.data.toList / 64 + 1), ∀ Q : Result (Option DecodedLog) → Nat → Prop,
      Ends (Checked.decode_log_as keccak256 parse_bytes log standard) 0 Q ↔
        KeepsCharactersAs keccak256 parse_bytes log standard ∧
          Q (decode_log_as keccak256 parse_bytes log standard) reads := by
  unfold Checked.decode_log_as KeepsCharactersAs decode_log_as
  cases htopics : log.topics with
  | nil => exact ⟨0, Nat.zero_le _, fun Q => by simp [ends_pure]⟩
  | cons topic0 topics =>
    dsimp only
    split
    · rename_i hevent
      refine ⟨0, Nat.zero_le _, fun Q => ?_⟩
      rw [ends_lift_bind]
      cases hvalidate : validate_transfer_shape_matches_standard keccak256 log standard with
      | error e =>
        -- what the shape check refuses is no event of this standard
        have hother : detect_token_standard_from_log keccak256 log ≠ .ok (some standard) := by
          intro hdetect
          rw [validate_of_detect hdetect] at hvalidate
          cases hvalidate
        simp [hother, bind, Except.bind]
      | ok =>
        -- what it accepts has as many topics as the decoder indexes
        have hdetect := detect_of_validate htopics hevent.1 hvalidate
        rw [after_ok, ok_bind, ends_map]
        rcases hevent.2 with rfl | rfl
        · obtain ⟨hcount, hwords⟩ := detect_eq_erc20 hdetect
          rw [htopics, List.length_cons] at hcount
          obtain ⟨topic1, topic2, rfl⟩ := List.length_eq_two.1 (Nat.succ.inj hcount)
          rw [ends_decode_transfer_erc20 htopics, cuts_word_of_one hwords]
          simp [hdetect]
        · have hcount := detect_eq_erc721 hdetect
          rw [htopics, List.length_cons] at hcount
          obtain ⟨topic1, topic2, topic3, rfl⟩ := List.length_eq_three.1 (Nat.succ.inj hcount)
          rw [ends_decode_transfer_erc721 htopics]
          simp [hdetect]
    · -- an ERC-1155 event counts its topics first
      have hcounted : topics.length ≠ 3 → ∃ e, require_topic_count log 4 = .error e := by
        intro hne
        unfold require_topic_count
        rw [htopics, List.length_cons, if_pos (by omega)]
        exact ⟨_, rfl⟩
      split
      · by_cases hthree : topics.length = 3
        · obtain ⟨topic1, topic2, topic3, rfl⟩ := List.length_eq_three.1 hthree
          refine ⟨0, Nat.zero_le _, fun Q => ?_⟩
          rw [ends_map, ends_decode_transfer_single htopics]
          simp
        · obtain ⟨e, he⟩ := hcounted hthree
          refine ⟨0, Nat.zero_le _, fun Q => ?_⟩
          unfold Checked.decode_transfer_single decode_transfer_single
          rw [ends_map, he, ends_lift_bind, after_error]
          simp [hthree, bind, Except.bind]
      · split
        · by_cases hthree : topics.length = 3
          · obtain ⟨topic1, topic2, topic3, rfl⟩ := List.length_eq_three.1 hthree
            obtain ⟨reads, hreads, hends⟩ := ends_decode_transfer_batch htopics hdata
            refine ⟨reads, hreads, fun Q => ?_⟩
            rw [ends_map, hends]
            simp
          · obtain ⟨e, he⟩ := hcounted hthree
            refine ⟨0, Nat.zero_le _, fun Q => ?_⟩
            unfold Checked.decode_transfer_batch decode_transfer_batch
            rw [ends_map, he, ends_lift_bind, after_error]
            simp [hthree, bind, Except.bind]
        · exact ⟨0, Nat.zero_le _, fun Q => by simp [ends_pure]⟩

theorem ends_decode_log (hdata : byte_len log.data.toList ≤ u64_max) (standard : TokenStandard) :
    ∃ reads ≤ 2 * (byte_len log.data.toList / 64 + 1), ∀ Q : Result (Option DecodedLog) → Nat → Prop,
      Ends (Checked.decode_log keccak256 parse_bytes log standard) 0 Q ↔
        KeepsCharacters keccak256 parse_bytes log standard ∧
          Q (decode_log keccak256 parse_bytes log standard) reads := by
  unfold Checked.decode_log KeepsCharacters decode_log
  by_cases hauto : standard.is_auto = true
  · rw [if_pos hauto, if_pos hauto, if_pos hauto]
    unfold Checked.detect_token_standard_from_log
    simp only [ends_lift_bind]
    cases detect_token_standard_from_log keccak256 log with
    | error e => exact ⟨0, Nat.zero_le _, fun Q => by simp [bind, Except.bind]⟩
    | ok found =>
      simp only [ok_bind, after_ok]
      cases found with
      | none => exact ⟨0, Nat.zero_le _, fun Q => by simp [ends_pure]⟩
      | some detected =>
        obtain ⟨reads, hreads, hends⟩ := ends_decode_log_as hdata detected
        refine ⟨reads, hreads, fun Q => ?_⟩
        rw [hends]
        simp
  · rw [if_neg hauto, if_neg hauto, if_neg hauto]
    exact ends_decode_log_as hdata standard

end Decoding

/-- Decoding a log whose data is as long as a string can be never panics just when no slice
that it reaches cuts a character. -/
theorem decoding_never_panics_iff (keccak256 : String → String)
    (parse_bytes : List Char → Option Nat) (log : RpcLog)
    (hdata : byte_len log.data.toList < 2 ^ 63) (standard : TokenStandard) :
    NeverPanics keccak256 parse_bytes log standard ↔
      KeepsCharacters keccak256 parse_bytes log standard := by
  have hfits : byte_len log.data.toList ≤ u64_max := by
    unfold u64_max
    omega
  obtain ⟨reads, hreads, hends⟩ := ends_decode_log hfits standard
  constructor
  · intro h
    exact ((hends _).1 h.decodes).1
  · intro h
    refine ⟨ends_lift.2 rfl, (hends _).2 ⟨h, rfl, hreads⟩, fun words offset_bytes hwords => ?_⟩
    have hlength := length_decode_data_words hwords
    obtain ⟨items, hitems, harray⟩ :=
      decode_dynamic_uint_array_eq parse_bytes (show words.length ≤ u64_max by omega) offset_bytes
    rw [harray, ends_steps_bind, ends_lift]
    exact ⟨rfl, by omega⟩

theorem decoding_never_panics_iff_two_tokens :
    NeverPanics event_digest parse_hex_digits two_token_batch .Erc1155 ↔
      KeepsCharacters event_digest parse_hex_digits two_token_batch .Erc1155 := by
  have hdata : byte_len two_token_batch.data.toList < 2 ^ 63 := by
    rw [show two_token_batch.data = batch_data [1, 2] [5, 7] from rfl, byte_len_batch_data]
    decide
  exact decoding_never_panics_iff event_digest parse_hex_digits two_token_batch hdata .Erc1155

/-- An ERC-721 `Transfer` whose second topic has a character of two bytes across byte 24. -/
def split_topic : RpcLog :=
  { two_token_batch with
    topics := ["0xddf252ad1be2c89b69c2b068fc378daa952ba7f163c4a11628f55a4df523b3ef",
      "0x00000000000000000000000éaaaaaaaaaaaaaaaaaaaaaaaaaaaaaaaaaaaaaaa",
      "0x000000000000000000000000bbbbbbbbbbbbbbbbbbbbbbbbbbbbbbbbbbbbbbbb",
      "0x0000000000000000000000000000000000000000000000000000000000000001"]
    data := "0x" }

theorem split_topic_panics :
    ¬ ∀ (keccak256 : String → String) (parse_bytes : List Char → Option Nat) (log : RpcLog)
      (standard : TokenStandard), byte_len log.data.toList < 2 ^ 63 →
      NeverPanics keccak256 parse_bytes log standard := by
  intro h
  have hdecodes := (h event_digest parse_hex_digits split_topic .Erc721 (by decide +kernel)).decodes
  have hpanics : panicked (Checked.decode_log event_digest parse_hex_digits split_topic .Erc721 0)
      = some .Slice := by decide +kernel
  rw [hdecodes.not_panicked] at hpanics
  cases hpanics

end EvmIndexer
