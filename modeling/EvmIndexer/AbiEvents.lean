/-
The decoder is the ABI's.

A transfer event of the ABI is a log with the topic of the event, as many topics as
it has indexed arguments, each of them 32 bytes, and data that holds its other
arguments (`AbiEvent`). On hex text `decode_log` accepts exactly those logs, and
returns the addresses and numbers they spell (`decode_log_iff`).

Each helper of the decoder gets one lemma that says when it succeeds and with what.
The array helper is the ABI library's `readArray`, item by item
(`decode_dynamic_uint_array_iff`), so that decoding the canonical encoding of two
lists is reading them back.
-/
import EvmIndexer.Decoder

set_option autoImplicit false

namespace EvmIndexer

/-! ## Hex text

The decoder works on text. It strips the `0x`, cuts byte ranges out of what is left and hands
them to a number parser, and on other text than hex digits each of these can fail in its own
way. On hex digits every cut is on a character boundary, and the number parser is assumed to
read digits as the number they spell (`ReadsHex`).
-/

/-- A text of hex digits behind `0x`, of either letter case and any number. This is how a
node writes topics and data, and the one thing that is asked of a log before its decoding is
compared with the ABI. -/
def HexText (value : String) : Prop := ∃ digits, strip_0x value = .ok digits ∧ IsHex digits

/-- The digits of a text, behind its `0x`. -/
def hex_digits (value : String) : List Char := value.toList.drop 2

theorem hex_digits_of_strip_0x {value : String} {digits : List Char}
    (h : strip_0x value = .ok digits) : hex_digits value = digits := by
  unfold strip_0x at h
  unfold hex_digits
  split at h
  · rename_i hvalue
    rw [hvalue]
    exact Except.ok.inj h
  · rename_i hvalue
    rw [hvalue]
    exact Except.ok.inj h
  · cases h

theorem HexText.strip {value : String} (h : HexText value) :
    strip_0x value = .ok (hex_digits value) ∧ IsHex (hex_digits value) := by
  obtain ⟨digits, hstrip, hhex⟩ := h
  rw [hex_digits_of_strip_0x hstrip]
  exact ⟨hstrip, hhex⟩

/-- No hex digit is an `x`, so nothing is stripped from hex digits. -/
theorem strip_optional_0x_of_isHex {word : List Char} (h : IsHex word) :
    strip_optional_0x word = word := by
  have hx : ∀ c ∈ word, c ≠ 'x' ∧ c ≠ 'X' := fun c hc =>
    is_ascii_hexdigit_ind (P := fun c => c ≠ 'x' ∧ c ≠ 'X') (by decide) (h c hc)
  unfold strip_optional_0x
  split
  · exact absurd rfl (hx 'x' (by simp)).1
  · exact absurd rfl (hx 'X' (by simp)).2
  · rfl

theorem IsHex.sublist {text part : List Char} (h : IsHex text) (hpart : part.Sublist text) :
    IsHex part := fun c hc => h c (hpart.subset hc)

theorem slice_of_isHex {text : List Char} (h : IsHex text) {start stop : Nat}
    (hstart : start ≤ stop) (hstop : stop ≤ text.length) :
    slice text start stop = .ok ((text.drop start).take (stop - start)) := by
  unfold slice
  rw [byte_slice_ascii h.ascii hstart hstop]

/-! ## Words

A word is 64 digits of a block. The decoder reads a word by its index in three ways: as an
address, as a number in decimal, and as an offset that has to fit a `usize`. Each reader gets
the lemma that says when it succeeds, and it is the block being long enough that decides it,
together with the bound of a `usize` for the offset.
-/

/-- The digits of word `index` of a block of hex digits. -/
def word_digits (digits : List Char) (index : Nat) : List Char := (digits.drop (index * 64)).take 64

/-- The number in word `index` of a block of hex digits. -/
def word (digits : List Char) (index : Nat) : Nat := hex_number (word_digits digits index)

/-- The numbers of the whole words of a block of hex digits. -/
def words (digits : List Char) : List Nat := (List.range (digits.length / 64)).map (word digits)

/-- The address in a 32-byte topic: its last 20 bytes, in lower case. -/
def address_of_topic (topic : String) : String :=
  to_ascii_lowercase (String.ofList ('0' :: 'x' :: (hex_digits topic).drop 24))

theorem isHex_word_digits {digits : List Char} (h : IsHex digits) (index : Nat) :
    IsHex (word_digits digits index) :=
  h.sublist ((List.take_sublist _ _).trans (List.drop_sublist _ _))

theorem length_word_digits {digits : List Char} {index : Nat}
    (h : index * 64 + 64 ≤ digits.length) : (word_digits digits index).length = 64 := by
  unfold word_digits
  rw [List.length_take, List.length_drop]
  omega

section Helpers

variable {parse_bytes : List Char → Option Nat}

/-- `BigUint::parse_bytes` in radix 16 reads hex digits as the number they spell. The crate
is outside the repository, so it is a parameter, with this as what is known of it. -/
def ReadsHex (parse_bytes : List Char → Option Nat) : Prop :=
  ∀ digits, digits ≠ [] → IsHex digits → parse_bytes digits = some (hex_number digits)

theorem topic_address_iff {topic : String} (h : HexText topic) {address : String} :
    topic_address topic = .ok address ↔
      (hex_digits topic).length = 64 ∧ address = address_of_topic topic := by
  obtain ⟨hstrip, hhex⟩ := h.strip
  unfold topic_address
  simp only [hstrip, bind_eq_ok, bail_eq_ok, Except.ok.injEq, exists_eq_left', not_not,
    hhex.ascii.byte_len]
  refine and_congr_right fun hlength => ?_
  have hslice : slice (hex_digits topic) 24 64 = .ok ((hex_digits topic).drop 24) := by
    rw [slice_of_isHex hhex (by omega) (by omega), List.take_of_length_le]
    rw [List.length_drop]
    omega
  simp only [hslice, Except.ok.injEq, exists_eq_left']
  unfold address_of_topic
  exact eq_comm

theorem word_at_iff {data : String} (h : HexText data) {index : Nat} {digits : List Char} :
    word_at data index = .ok digits ↔
      index * 64 + 64 ≤ (hex_digits data).length ∧ digits = word_digits (hex_digits data) index := by
  obtain ⟨hstrip, hhex⟩ := h.strip
  unfold word_at
  simp only [hstrip, bind_eq_ok, bail_eq_ok, Except.ok.injEq, exists_eq_left', not_lt,
    hhex.ascii.byte_len]
  refine and_congr_right fun hlength => ?_
  rw [slice_of_isHex hhex (by omega) hlength, Except.ok.injEq, Nat.add_sub_cancel_left]
  exact eq_comm

theorem decode_word_iff (hreads : ReadsHex parse_bytes) {digits : List Char} (h : IsHex digits)
    {value : Nat} :
    decode_word parse_bytes digits = .ok value ↔ digits.length = 64 ∧ value = hex_number digits := by
  unfold decode_word
  simp only [strip_optional_0x_of_isHex h, h.ascii.byte_len, bail_eq_ok, not_not]
  refine and_congr_right fun hlength => ?_
  have hne : digits ≠ [] := by
    rintro rfl
    cases hlength
  simp only [hreads digits hne h, Except.ok.injEq]
  exact eq_comm

theorem decode_word_as_decimal_iff (hreads : ReadsHex parse_bytes) {digits : List Char}
    (h : IsHex digits) {text : String} :
    decode_word_as_decimal parse_bytes digits = .ok text ↔
      digits.length = 64 ∧ text = toString (hex_number digits) := by
  unfold decode_word_as_decimal
  rw [map_eq_ok]
  constructor
  · rintro ⟨value, hvalue, rfl⟩
    obtain ⟨hlength, rfl⟩ := (decode_word_iff hreads h).1 hvalue
    exact ⟨hlength, rfl⟩
  · rintro ⟨hlength, rfl⟩
    exact ⟨_, (decode_word_iff hreads h).2 ⟨hlength, rfl⟩, rfl⟩

/-- A decimal text of a number is parsed as that number, where it is in range. -/
theorem parse_unsigned_toString (bound n : Nat) :
    parse_unsigned bound (toString n).toList = if n < bound then some n else none := by
  have hplus : ∀ c ∈ (toString n).toList, c ≠ '+' := by
    intro c hc
    rw [Nat.toString_eq_repr, Nat.toList_repr] at hc
    have hdigit := Nat.isDigit_of_mem_toDigits (by decide) (by decide) hc
    rintro rfl
    exact absurd hdigit (by decide)
  have hvalue := decimal_value_toString n
  unfold parse_unsigned
  split
  · rename_i rest hrest
    exact absurd rfl (hplus '+' (hrest ▸ List.mem_cons_self ..))
  · simp only [hvalue, Option.bind_some]

theorem word_decimal_as_usize_iff (hreads : ReadsHex parse_bytes) {digits : List Char}
    (h : IsHex digits) {n : Nat} :
    word_decimal_as_usize parse_bytes digits = .ok n ↔
      digits.length = 64 ∧ n = hex_number digits ∧ n < 2 ^ 64 := by
  unfold word_decimal_as_usize
  rw [bind_eq_ok]
  constructor
  · rintro ⟨text, htext, hparse⟩
    obtain ⟨hlength, rfl⟩ := (decode_word_as_decimal_iff hreads h).1 htext
    rw [parse_unsigned_toString] at hparse
    split at hparse
    · rename_i m hm
      split at hm
      · rename_i hlt
        cases hm
        cases hparse
        exact ⟨hlength, rfl, hlt⟩
      · cases hm
    · cases hparse
  · rintro ⟨hlength, rfl, hlt⟩
    refine ⟨_, (decode_word_as_decimal_iff hreads h).2 ⟨hlength, rfl⟩, ?_⟩
    rw [parse_unsigned_toString, if_pos hlt]

/-! ## Blocks of words

The two arrays of a batch are read from a list of words: the head says at which word an array
starts, that word says how many items follow. The offset must be a multiple of 32 and the
items must be there, which is what `readArray` of the library asks, and nothing is asked of
the words in between.
-/

theorem data_word_count_iff {data : String} (h : HexText data) {n : Nat} :
    data_word_count data = .ok n ↔
      (hex_digits data).length % 64 = 0 ∧ n = (hex_digits data).length / 64 := by
  obtain ⟨hstrip, hhex⟩ := h.strip
  unfold data_word_count
  simp only [hstrip, bind_eq_ok, bail_eq_ok, Except.ok.injEq, exists_eq_left', not_not,
    hhex.ascii.byte_len]
  exact and_congr_right fun _ => eq_comm

/-- A fallible map that succeeds on every element is the map of the values. -/
theorem mapM_eq_ok_map {α β : Type} {f : α → Result β} {g : α → β} {l : List α}
    (h : ∀ a ∈ l, f a = .ok (g a)) : l.mapM f = .ok (l.map g) := by
  induction l with
  | nil => rfl
  | cons a rest ih =>
    rw [List.mapM_cons, h a (List.mem_cons_self ..), ih fun b hb => h b (List.mem_cons_of_mem _ hb)]
    rfl

theorem decode_data_words_iff {data : String} (h : HexText data) {ws : List (List Char)} :
    decode_data_words data = .ok ws ↔ (hex_digits data).length % 64 = 0 ∧
      ws = (List.range ((hex_digits data).length / 64)).map (word_digits (hex_digits data)) := by
  obtain ⟨hstrip, hhex⟩ := h.strip
  unfold decode_data_words
  simp only [hstrip, bind_eq_ok, bail_eq_ok, Except.ok.injEq, exists_eq_left', not_not,
    hhex.ascii.byte_len]
  refine and_congr_right fun _ => ?_
  have hmap := mapM_eq_ok_map (f := fun i => slice (hex_digits data) (i * 64) (i * 64 + 64))
    (g := word_digits (hex_digits data)) (l := List.range ((hex_digits data).length / 64)) (by
      intro i hi
      have hbound := List.mem_range.1 hi
      rw [slice_of_isHex hhex (by omega) (by omega), Nat.add_sub_cancel_left]
      rfl)
  rw [hmap, Except.ok.injEq]
  exact eq_comm

/-- Words of hex digits, each of 32 bytes. -/
def HexWords (ws : List (List Char)) : Prop := ∀ w ∈ ws, IsHex w ∧ w.length = 64

/-- The items are the first `len` of the words, if there are as many. -/
theorem decode_items_iff (hreads : ReadsHex parse_bytes) {ws : List (List Char)} (h : HexWords ws)
    {len : Nat} {items : List String} :
    decode_items parse_bytes len ws = .ok items ↔
      len ≤ ws.length ∧ items = ((ws.map hex_number).take len).map toString := by
  induction ws generalizing len items with
  | nil =>
    cases len with
    | zero => simp [decode_items, eq_comm]
    | succ len => simp [decode_items]
  | cons w rest ih =>
    cases len with
    | zero => simp [decode_items, eq_comm]
    | succ len =>
      obtain ⟨hhex, hlength⟩ := h w (List.mem_cons_self ..)
      have hrest : HexWords rest := fun v hv => h v (List.mem_cons_of_mem _ hv)
      have hitem : decode_word_as_decimal parse_bytes w = .ok (toString (hex_number w)) :=
        (decode_word_as_decimal_iff hreads hhex).2 ⟨hlength, rfl⟩
      rw [decode_items, hitem]
      simp only [bind_eq_ok, Except.ok.injEq, exists_eq_left', ih hrest, List.length_cons,
        List.map_cons, List.take_succ_cons]
      constructor
      · rintro ⟨tail, ⟨hlen, rfl⟩, rfl⟩
        exact ⟨by omega, rfl⟩
      · rintro ⟨hlen, rfl⟩
        exact ⟨_, ⟨by omega, rfl⟩, rfl⟩

/-- The array helper is the ABI's, written in decimal. It fails where the ABI has no array:
at an offset that is no multiple of 32 or past the words, and where the length is more than
the words that are left. -/
theorem decode_dynamic_uint_array_iff (hreads : ReadsHex parse_bytes) {ws : List (List Char)}
    (h : HexWords ws) (hfits : ws.length < 2 ^ 64) {offset : Nat} {items : List String} :
    decode_dynamic_uint_array parse_bytes ws offset = .ok items ↔
      ∃ xs, Abi.readArray (ws.map hex_number) offset = some xs ∧ items = xs.map toString := by
  unfold decode_dynamic_uint_array Abi.readArray
  rw [bail_eq_ok, not_not]
  by_cases haligned : offset % 32 = 0
  · rw [if_pos haligned, ← List.map_drop]
    have htail : HexWords (ws.drop (offset / 32)) := fun w hw => h w (List.mem_of_mem_drop hw)
    have hshort : (ws.drop (offset / 32)).length ≤ ws.length := by
      rw [List.length_drop]
      omega
    generalize ws.drop (offset / 32) = tail at htail hshort
    cases tail with
    | nil => simp [haligned]
    | cons len_word rest =>
      obtain ⟨hhex, hlength⟩ := htail len_word (List.mem_cons_self ..)
      have hrest : HexWords rest := fun w hw => htail w (List.mem_cons_of_mem _ hw)
      have hrest_fits : rest.length < 2 ^ 64 := by
        rw [List.length_cons] at hshort
        omega
      simp only [haligned, true_and, List.map_cons, List.length_map, bind_eq_ok]
      constructor
      · rintro ⟨len, hlen, hitems⟩
        obtain ⟨-, rfl, -⟩ := (word_decimal_as_usize_iff hreads hhex).1 hlen
        obtain ⟨hle, rfl⟩ := (decode_items_iff hreads hrest).1 hitems
        exact ⟨_, if_pos hle, rfl⟩
      · rintro ⟨xs, hxs, rfl⟩
        -- a length that lies inside the data is one a `usize` holds
        split at hxs
        · rename_i hle
          cases hxs
          exact ⟨hex_number len_word, (word_decimal_as_usize_iff hreads hhex).2
            ⟨hlength, rfl, lt_of_le_of_lt hle hrest_fits⟩, (decode_items_iff hreads hrest).2 ⟨hle, rfl⟩⟩
        · cases hxs
  · simp [haligned]

end Helpers

/-! ## Transfer events

`AbiEvent` is the specification, one constructor for each event of the three standards, in
the terms of the ABI: topics, indexed arguments, words of data. It says nothing of the order
in which the code checks, nor of its messages. A topic is text and must be told apart from
the others by its text, so that the three event topics are different is an assumption on the
hash (`EventTopics`).
-/

/-- The topics of the three events are different texts, as they are for Keccak-256. The hash
itself is a parameter, and nothing else is needed of it: the decoder only compares. -/
structure EventTopics (keccak256 : String → String) : Prop where
  transfer_ne_single : transfer keccak256 ≠ transfer_single keccak256
  transfer_ne_batch : transfer keccak256 ≠ transfer_batch keccak256
  single_ne_batch : transfer_single keccak256 ≠ transfer_batch keccak256

/-- A topic is 32 bytes. The ABI pads every indexed value to a word, and the decoder refuses
an address topic of another length. -/
def IsWord (topic : String) : Prop := (hex_digits topic).length = 64

/-- The transfer events of the ABI, of a log whose topics and data are hex text, and
the decoded log each spells. -/
inductive AbiEvent (keccak256 : String → String) (log : RpcLog) : TokenStandard → DecodedLog → Prop
  | erc20 {event «from» «to» : String} (htopics : log.topics = [event, «from», «to»])
      (hevent : to_ascii_lowercase event = transfer keccak256) (hfrom : IsWord «from»)
      (hto : IsWord «to») (hdata : (hex_digits log.data).length = 64) :
      AbiEvent keccak256 log .Erc20
        { event_name := "Transfer"
          entries :=
            [{ event_name := "Transfer"
               token_standard := .Erc20
               operator := none
               «from» := address_of_topic «from»
               «to» := address_of_topic «to»
               token_id := ""
               amount := toString (word (hex_digits log.data) 0)
               batch_index := 0 }] }
  | erc721 {event «from» «to» token : String} (htopics : log.topics = [event, «from», «to», token])
      (hevent : to_ascii_lowercase event = transfer keccak256) (hfrom : IsWord «from»)
      (hto : IsWord «to») (htoken : IsWord token) (hdata : hex_digits log.data = []) :
      AbiEvent keccak256 log .Erc721
        { event_name := "Transfer"
          entries :=
            [{ event_name := "Transfer"
               token_standard := .Erc721
               operator := none
               «from» := address_of_topic «from»
               «to» := address_of_topic «to»
               token_id := toString (word (hex_digits token) 0)
               amount := "1"
               batch_index := 0 }] }
  | erc1155_single {event operator «from» «to» : String}
      (htopics : log.topics = [event, operator, «from», «to»])
      (hevent : to_ascii_lowercase event = transfer_single keccak256) (hoperator : IsWord operator)
      (hfrom : IsWord «from») (hto : IsWord «to») (hdata : 128 ≤ (hex_digits log.data).length) :
      AbiEvent keccak256 log .Erc1155
        { event_name := "TransferSingle"
          entries :=
            [{ event_name := "TransferSingle"
               token_standard := .Erc1155
               operator := some (address_of_topic operator)
               «from» := address_of_topic «from»
               «to» := address_of_topic «to»
               token_id := toString (word (hex_digits log.data) 0)
               amount := toString (word (hex_digits log.data) 1)
               batch_index := 0 }] }
  | erc1155_batch {event operator «from» «to» : String} {ids_offset amounts_offset : Nat}
      {block ids amounts : List Nat} (htopics : log.topics = [event, operator, «from», «to»])
      (hevent : to_ascii_lowercase event = transfer_batch keccak256) (hoperator : IsWord operator)
      (hfrom : IsWord «from») (hto : IsWord «to»)
      (hdata : (hex_digits log.data).length % 64 = 0)
      (hblock : words (hex_digits log.data) = ids_offset :: amounts_offset :: block)
      (hids : Abi.readArray (words (hex_digits log.data)) ids_offset = some ids)
      (hamounts : Abi.readArray (words (hex_digits log.data)) amounts_offset = some amounts)
      (hlength : ids.length = amounts.length) :
      AbiEvent keccak256 log .Erc1155
        { event_name := "TransferBatch"
          entries := batch_entries (address_of_topic operator) (address_of_topic «from»)
            (address_of_topic «to») (ids.map toString) (amounts.map toString) }

section Events

variable {keccak256 : String → String} {parse_bytes : List Char → Option Nat} {log : RpcLog}

/-- A `Transfer` log has the shape of a standard, or is refused. -/
theorem validate_transfer_shape_iff (htopics : EventTopics keccak256) (hdata : HexText log.data)
    {event : String} {indexed : List String} (hlog : log.topics = event :: indexed)
    (hevent : to_ascii_lowercase event = transfer keccak256) {standard : TokenStandard} :
    validate_transfer_shape_matches_standard keccak256 log standard = .ok () ↔
      (standard = .Erc721 ∧ indexed.length = 3 ∧ (hex_digits log.data).length = 0) ∨
        (standard = .Erc20 ∧ indexed.length = 2 ∧ (hex_digits log.data).length = 64) := by
  have hother : ¬ (to_ascii_lowercase event = transfer_single keccak256 ∨
      to_ascii_lowercase event = transfer_batch keccak256) := by
    rw [hevent]
    rintro (h | h)
    · exact htopics.transfer_ne_single h
    · exact htopics.transfer_ne_batch h
  -- the detected standard, where there is one
  have hdetect : ∀ r, detect_token_standard_from_log keccak256 log = .ok r ↔
      (r = some .Erc721 ∧ indexed.length = 3 ∧ (hex_digits log.data).length = 0) ∨
        (r = some .Erc20 ∧ indexed.length = 2 ∧ (hex_digits log.data).length = 64) := by
    intro r
    unfold detect_token_standard_from_log
    rw [hlog]
    simp only [if_neg hother, if_pos hevent, bind_eq_ok, data_word_count_iff hdata,
      List.length_cons]
    constructor
    · rintro ⟨n, ⟨hwhole, rfl⟩, h⟩
      split at h
      · rename_i hcount hwords
        cases h
        exact Or.inl ⟨rfl, by omega, by omega⟩
      · rename_i hcount hwords
        cases h
        exact Or.inr ⟨rfl, by omega, by omega⟩
      · cases h
    · rintro (⟨rfl, hcount, hlength⟩ | ⟨rfl, hcount, hlength⟩)
      · refine ⟨0, ⟨by omega, by omega⟩, ?_⟩
        rw [hcount]
        rfl
      · refine ⟨1, ⟨by omega, by omega⟩, ?_⟩
        rw [hcount]
        rfl
  unfold validate_transfer_shape_matches_standard
  rw [bind_eq_ok]
  constructor
  · rintro ⟨r, hr, h⟩
    rcases (hdetect r).1 hr with ⟨rfl, hcount, hlength⟩ | ⟨rfl, hcount, hlength⟩
    · rw [bail_eq_ok, not_not] at h
      exact Or.inl ⟨h.1.symm, hcount, hlength⟩
    · rw [bail_eq_ok, not_not] at h
      exact Or.inr ⟨h.1.symm, hcount, hlength⟩
  · rintro (⟨rfl, hcount, hlength⟩ | ⟨rfl, hcount, hlength⟩)
    · exact ⟨_, (hdetect _).2 (Or.inl ⟨rfl, hcount, hlength⟩), if_neg (not_not.2 rfl)⟩
    · exact ⟨_, (hdetect _).2 (Or.inr ⟨rfl, hcount, hlength⟩), if_neg (not_not.2 rfl)⟩

/-- Word `index` of the data, in decimal, where the data reaches that far. -/
theorem decode_word_at_iff (hreads : ReadsHex parse_bytes) {data : String} (h : HexText data)
    {index : Nat} {text : String} :
    (word_at data index >>= decode_word_as_decimal parse_bytes) = .ok text ↔
      index * 64 + 64 ≤ (hex_digits data).length ∧ text = toString (word (hex_digits data) index) := by
  have hhex := isHex_word_digits h.strip.2 index
  rw [bind_eq_ok]
  constructor
  · rintro ⟨digits, hword, htext⟩
    obtain ⟨hlength, rfl⟩ := (word_at_iff h).1 hword
    exact ⟨hlength, ((decode_word_as_decimal_iff hreads hhex).1 htext).2⟩
  · rintro ⟨hlength, rfl⟩
    exact ⟨_, (word_at_iff h).2 ⟨hlength, rfl⟩,
      (decode_word_as_decimal_iff hreads hhex).2 ⟨length_word_digits hlength, rfl⟩⟩

/-- A topic read as a number. -/
theorem decode_topic_iff (hreads : ReadsHex parse_bytes) {topic : String} (h : HexText topic)
    {text : String} :
    (strip_0x topic >>= decode_word_as_decimal parse_bytes) = .ok text ↔
      IsWord topic ∧ text = toString (word (hex_digits topic) 0) := by
  obtain ⟨hstrip, hhex⟩ := h.strip
  rw [hstrip]
  refine (decode_word_as_decimal_iff hreads hhex).trans (and_congr_right fun hlength => ?_)
  have hword : word_digits (hex_digits topic) 0 = hex_digits topic := by
    unfold word_digits
    rw [Nat.zero_mul, List.drop_zero, List.take_of_length_le (le_of_eq hlength)]
  unfold word
  rw [hword]

theorem require_topic_count_iff {expected : Nat} :
    require_topic_count log expected = .ok () ↔ log.topics.length = expected := by
  unfold require_topic_count
  rw [bail_eq_ok, not_not]
  exact and_iff_left rfl

/-- The indexed arguments of an event with three of them. -/
theorem indexed_topics {event first second third : String}
    (hlog : log.topics = [event, first, second, third]) :
    log.topic 1 = first ∧ log.topic 2 = second ∧ log.topic 3 = third := by
  unfold RpcLog.topic
  rw [hlog]
  exact ⟨rfl, rfl, rfl⟩

theorem indexed_hexText (hhex : ∀ topic ∈ log.topics, HexText topic)
    {event first second third : String} (hlog : log.topics = [event, first, second, third]) :
    HexText first ∧ HexText second ∧ HexText third := by
  rw [hlog] at hhex
  exact ⟨hhex first (by simp), hhex second (by simp), hhex third (by simp)⟩

theorem decode_transfer_erc20_iff (hreads : ReadsHex parse_bytes) {event «from» «to» : String}
    (hlog : log.topics = [event, «from», «to»]) (hfrom : HexText «from») (hto : HexText «to»)
    (hdata : HexText log.data) (hlength : (hex_digits log.data).length = 64) {decoded : DecodedLog}
    (hevent : to_ascii_lowercase event = transfer keccak256) :
    decode_transfer parse_bytes log .Erc20 = .ok decoded ↔ AbiEvent keccak256 log .Erc20 decoded := by
  have hcount : require_topic_count log 3 = .ok () := require_topic_count_iff.2 (by rw [hlog]; rfl)
  have hone : log.topic 1 = «from» := by unfold RpcLog.topic; rw [hlog]; rfl
  have htwo : log.topic 2 = «to» := by unfold RpcLog.topic; rw [hlog]; rfl
  unfold decode_transfer
  simp only [hcount, hone, htwo, bind_eq_ok, exists_const, Except.ok.injEq, true_and]
  constructor
  · rintro ⟨⟨f, t, token, value⟩, ⟨digits, hdigits, amount, hamount, a, ha, b, hb, hparts⟩, rfl⟩
    cases hparts
    have hword := (decode_word_at_iff hreads hdata).1 (bind_eq_ok.2 ⟨digits, hdigits, hamount⟩)
    obtain ⟨hfrom_word, rfl⟩ := (topic_address_iff hfrom).1 ha
    obtain ⟨hto_word, rfl⟩ := (topic_address_iff hto).1 hb
    rw [hword.2]
    exact AbiEvent.erc20 hlog hevent hfrom_word hto_word hlength
  · intro h
    cases h with
    | @erc20 event' from' to' htopics _ hfrom_word hto_word _ =>
      rw [hlog] at htopics
      cases htopics
      obtain ⟨digits, hdigits, hamount⟩ := bind_eq_ok.1
        ((decode_word_at_iff hreads hdata).2 ⟨(by omega : 0 * 64 + 64 ≤ _), rfl⟩)
      exact ⟨_, ⟨digits, hdigits, _, hamount, _, (topic_address_iff hfrom).2 ⟨hfrom_word, rfl⟩, _,
        (topic_address_iff hto).2 ⟨hto_word, rfl⟩, rfl⟩, rfl⟩

theorem decode_transfer_erc721_iff (hreads : ReadsHex parse_bytes) {event «from» «to» token : String}
    (hlog : log.topics = [event, «from», «to», token]) (hfrom : HexText «from») (hto : HexText «to»)
    (htoken : HexText token) (hdata : hex_digits log.data = []) {decoded : DecodedLog}
    (hevent : to_ascii_lowercase event = transfer keccak256) :
    decode_transfer parse_bytes log .Erc721 = .ok decoded ↔
      AbiEvent keccak256 log .Erc721 decoded := by
  have hcount : require_topic_count log 4 = .ok () := require_topic_count_iff.2 (by rw [hlog]; rfl)
  obtain ⟨hone, htwo, hthree⟩ := indexed_topics hlog
  unfold decode_transfer
  simp only [hcount, hone, htwo, hthree, bind_eq_ok, exists_const, Except.ok.injEq, true_and]
  constructor
  · rintro ⟨⟨f, t, id, value⟩, ⟨a, ha, b, hb, digits, hdigits, n, hn, hparts⟩, rfl⟩
    cases hparts
    obtain ⟨hfrom_word, rfl⟩ := (topic_address_iff hfrom).1 ha
    obtain ⟨hto_word, rfl⟩ := (topic_address_iff hto).1 hb
    have hid := (decode_topic_iff hreads htoken).1 (bind_eq_ok.2 ⟨digits, hdigits, hn⟩)
    rw [hid.2]
    exact AbiEvent.erc721 hlog hevent hfrom_word hto_word hid.1 hdata
  · intro h
    cases h with
    | @erc721 event' from' to' token' htopics _ hfrom_word hto_word htoken_word _ =>
      rw [hlog] at htopics
      cases htopics
      obtain ⟨digits, hdigits, hid⟩ := bind_eq_ok.1
        ((decode_topic_iff hreads htoken).2 ⟨htoken_word, rfl⟩)
      exact ⟨_, ⟨_, (topic_address_iff hfrom).2 ⟨hfrom_word, rfl⟩, _,
        (topic_address_iff hto).2 ⟨hto_word, rfl⟩, digits, hdigits, _, hid, rfl⟩, rfl⟩

theorem decode_transfer_single_iff (htopics : EventTopics keccak256) (hreads : ReadsHex parse_bytes)
    (hhex : ∀ topic ∈ log.topics, HexText topic) (hdata : HexText log.data) {event : String}
    {indexed : List String} (hlog : log.topics = event :: indexed)
    (hevent : to_ascii_lowercase event = transfer_single keccak256) {decoded : DecodedLog} :
    decode_transfer_single parse_bytes log = .ok decoded ↔
      AbiEvent keccak256 log .Erc1155 decoded := by
  constructor
  · intro h
    unfold decode_transfer_single at h
    simp only [bind_eq_ok] at h
    obtain ⟨_, hcount, d0, hd0, id, hid, d1, hd1, amount, hamount, o, ho, f, hf, t, ht, h⟩ := h
    rw [require_topic_count_iff, hlog] at hcount
    obtain ⟨operator, «from», «to», hindexed⟩ := List.length_eq_three.1 (Nat.succ.inj hcount)
    rw [hindexed] at hlog
    obtain ⟨hoperator_hex, hfrom_hex, hto_hex⟩ := indexed_hexText hhex hlog
    obtain ⟨hone, htwo, hthree⟩ := indexed_topics hlog
    rw [hone] at ho
    rw [htwo] at hf
    rw [hthree] at ht
    -- the two words of the data are the token and the amount
    have hword0 := (decode_word_at_iff hreads hdata).1 (bind_eq_ok.2 ⟨d0, hd0, hid⟩)
    have hword1 := (decode_word_at_iff hreads hdata).1 (bind_eq_ok.2 ⟨d1, hd1, hamount⟩)
    obtain ⟨hoperator, rfl⟩ := (topic_address_iff hoperator_hex).1 ho
    obtain ⟨hfrom, rfl⟩ := (topic_address_iff hfrom_hex).1 hf
    obtain ⟨hto, rfl⟩ := (topic_address_iff hto_hex).1 ht
    rw [← Except.ok.inj h, hword0.2, hword1.2]
    exact AbiEvent.erc1155_single hlog hevent hoperator hfrom hto hword1.1
  · intro h
    cases h with
    | @erc1155_single event' operator «from» «to» hlog' hevent' hoperator hfrom hto hlength =>
      obtain ⟨hoperator_hex, hfrom_hex, hto_hex⟩ := indexed_hexText hhex hlog'
      have hcount : require_topic_count log 4 = .ok () :=
        require_topic_count_iff.2 (by rw [hlog']; rfl)
      obtain ⟨hone, htwo, hthree⟩ := indexed_topics hlog'
      obtain ⟨d0, hd0, hid⟩ := bind_eq_ok.1
        ((decode_word_at_iff hreads hdata).2 ⟨(by omega : 0 * 64 + 64 ≤ _), rfl⟩)
      obtain ⟨d1, hd1, hamount⟩ := bind_eq_ok.1
        ((decode_word_at_iff hreads hdata).2 ⟨(by omega : 1 * 64 + 64 ≤ _), rfl⟩)
      unfold decode_transfer_single
      simp only [bind_eq_ok, hone, htwo, hthree]
      exact ⟨_, hcount, d0, hd0, _, hid, d1, hd1, _, hamount, _,
        (topic_address_iff hoperator_hex).2 ⟨hoperator, rfl⟩, _,
        (topic_address_iff hfrom_hex).2 ⟨hfrom, rfl⟩, _,
        (topic_address_iff hto_hex).2 ⟨hto, rfl⟩, rfl⟩
    -- the digest of a batch is another one
    | @erc1155_batch event' operator «from» «to» _ _ _ _ _ hlog' hevent' =>
      rw [hlog] at hlog'
      cases hlog'
      exact absurd (hevent.symm.trans hevent') htopics.single_ne_batch

/-- The words the decoder cuts the data into are the words of the block. -/
theorem decode_data_words_spec {data : String} (h : HexText data) {ws : List (List Char)}
    (hws : decode_data_words data = .ok ws) :
    HexWords ws ∧ ws.map hex_number = words (hex_digits data) ∧
      ws.length = (hex_digits data).length / 64 := by
  obtain ⟨-, rfl⟩ := (decode_data_words_iff h).1 hws
  refine ⟨?_, ?_, ?_⟩
  · intro w hw
    obtain ⟨i, hi, rfl⟩ := List.mem_map.1 hw
    have hbound := List.mem_range.1 hi
    exact ⟨isHex_word_digits h.strip.2 i, length_word_digits (by omega)⟩
  · rw [List.map_map]
    rfl
  · rw [List.length_map, List.length_range]

theorem decode_transfer_batch_iff (htopics : EventTopics keccak256) (hreads : ReadsHex parse_bytes)
    (hhex : ∀ topic ∈ log.topics, HexText topic) (hdata : HexText log.data)
    (hfits : (hex_digits log.data).length < 2 ^ 63) {event : String} {indexed : List String}
    (hlog : log.topics = event :: indexed)
    (hevent : to_ascii_lowercase event = transfer_batch keccak256) {decoded : DecodedLog} :
    decode_transfer_batch parse_bytes log = .ok decoded ↔
      AbiEvent keccak256 log .Erc1155 decoded := by
  constructor
  · intro h
    unfold decode_transfer_batch at h
    simp only [bind_eq_ok] at h
    obtain ⟨_, hcount, ws, hws, h⟩ := h
    rw [require_topic_count_iff, hlog] at hcount
    obtain ⟨operator, «from», «to», hindexed⟩ := List.length_eq_three.1 (Nat.succ.inj hcount)
    rw [hindexed] at hlog
    obtain ⟨hoperator_hex, hfrom_hex, hto_hex⟩ := indexed_hexText hhex hlog
    obtain ⟨hone, htwo, hthree⟩ := indexed_topics hlog
    obtain ⟨hwhole, -⟩ := (decode_data_words_iff hdata).1 hws
    obtain ⟨hwords, hblock, hlength⟩ := decode_data_words_spec hdata hws
    split at h
    · cases h
    · rename_i ids_word rest
      simp only [bind_eq_ok] at h
      obtain ⟨ids_offset, hids_offset, h⟩ := h
      split at h
      · cases h
      · rename_i amounts_word block
        simp only [bind_eq_ok, bail_eq_ok, not_not, hone, htwo, hthree] at h
        obtain ⟨amounts_offset, hamounts_offset, ids, hids, amounts, hamounts, hsame, o, ho, f, hf,
          t, ht, h⟩ := h
        have hids_word := hwords ids_word (by simp)
        have hamounts_word := hwords amounts_word (by simp)
        obtain ⟨-, rfl, -⟩ := (word_decimal_as_usize_iff hreads hids_word.1).1 hids_offset
        obtain ⟨-, rfl, -⟩ := (word_decimal_as_usize_iff hreads hamounts_word.1).1 hamounts_offset
        have hsmall : (ids_word :: amounts_word :: block).length < 2 ^ 64 := by omega
        obtain ⟨xs, hxs, rfl⟩ := (decode_dynamic_uint_array_iff hreads hwords hsmall).1 hids
        obtain ⟨ys, hys, rfl⟩ := (decode_dynamic_uint_array_iff hreads hwords hsmall).1 hamounts
        obtain ⟨hoperator, rfl⟩ := (topic_address_iff hoperator_hex).1 ho
        obtain ⟨hfrom, rfl⟩ := (topic_address_iff hfrom_hex).1 hf
        obtain ⟨hto, rfl⟩ := (topic_address_iff hto_hex).1 ht
        rw [hblock] at hxs hys
        rw [List.length_map, List.length_map] at hsame
        rw [← Except.ok.inj h]
        exact AbiEvent.erc1155_batch hlog hevent hoperator hfrom hto hwhole hblock.symm hxs hys hsame
  · intro h
    cases h with
    | erc1155_single hlog' hevent' =>
      rw [hlog] at hlog'
      cases hlog'
      exact absurd (hevent'.symm.trans hevent) htopics.single_ne_batch
    | @erc1155_batch event' operator «from» «to» ids_offset amounts_offset block xs ys hlog' hevent'
        hoperator hfrom hto hwhole hblock hxs hys hsame =>
      obtain ⟨hoperator_hex, hfrom_hex, hto_hex⟩ := indexed_hexText hhex hlog'
      have hcount : require_topic_count log 4 = .ok () :=
        require_topic_count_iff.2 (by rw [hlog']; rfl)
      obtain ⟨hone, htwo, hthree⟩ := indexed_topics hlog'
      obtain ⟨ws, hws⟩ : ∃ ws, decode_data_words log.data = .ok ws :=
        ⟨_, (decode_data_words_iff hdata).2 ⟨hwhole, rfl⟩⟩
      obtain ⟨hwords, hnumbers, hlength⟩ := decode_data_words_spec hdata hws
      have hsmall : ws.length < 2 ^ 64 := by omega
      rw [← hnumbers] at hblock hxs hys
      obtain ⟨ids_word, rest, rfl, rfl, hrest⟩ := List.map_eq_cons_iff.1 hblock
      obtain ⟨amounts_word, words', rfl, rfl, -⟩ := List.map_eq_cons_iff.1 hrest
      have hids_word := hwords ids_word (by simp)
      have hamounts_word := hwords amounts_word (by simp)
      -- an offset that an array is read at lies inside the data, so a `usize` holds it
      have hoffset : ∀ {offset items}, Abi.readArray
          ((ids_word :: amounts_word :: words').map hex_number) offset = some items →
          offset < 2 ^ 64 := by
        intro offset items hread
        have hinside := Abi.offset_lt_of_readArray hread
        rw [List.length_map] at hinside
        omega
      unfold decode_transfer_batch
      rw [bind_eq_ok]
      refine ⟨_, hcount, ?_⟩
      rw [bind_eq_ok]
      refine ⟨_, hws, ?_⟩
      simp only [bind_eq_ok, bail_eq_ok, not_not, hone, htwo, hthree]
      refine ⟨_, (word_decimal_as_usize_iff hreads hids_word.1).2
        ⟨hids_word.2, rfl, hoffset hxs⟩, _, (word_decimal_as_usize_iff hreads hamounts_word.1).2
        ⟨hamounts_word.2, rfl, hoffset hys⟩, _,
        (decode_dynamic_uint_array_iff hreads hwords hsmall).2 ⟨xs, hxs, rfl⟩, _,
        (decode_dynamic_uint_array_iff hreads hwords hsmall).2 ⟨ys, hys, rfl⟩, ?_, _,
        (topic_address_iff hoperator_hex).2 ⟨hoperator, rfl⟩, _,
        (topic_address_iff hfrom_hex).2 ⟨hfrom, rfl⟩, _,
        (topic_address_iff hto_hex).2 ⟨hto, rfl⟩, rfl⟩
      rw [List.length_map, List.length_map]
      exact hsame

/-- An event of the ABI has a first topic, the one of the event, and the standard of the event. -/
theorem AbiEvent.first_topic {standard : TokenStandard} {decoded : DecodedLog}
    (h : AbiEvent keccak256 log standard decoded) :
    ∃ event indexed, log.topics = event :: indexed ∧
      ((to_ascii_lowercase event = transfer keccak256 ∧
          (standard = .Erc20 ∨ standard = .Erc721)) ∨
        (to_ascii_lowercase event = transfer_single keccak256 ∧ standard = .Erc1155) ∨
        (to_ascii_lowercase event = transfer_batch keccak256 ∧ standard = .Erc1155)) := by
  cases h with
  | erc20 htopics hevent => exact ⟨_, _, htopics, Or.inl ⟨hevent, Or.inl rfl⟩⟩
  | erc721 htopics hevent => exact ⟨_, _, htopics, Or.inl ⟨hevent, Or.inr rfl⟩⟩
  | erc1155_single htopics hevent => exact ⟨_, _, htopics, Or.inr (Or.inl ⟨hevent, rfl⟩)⟩
  | erc1155_batch htopics hevent => exact ⟨_, _, htopics, Or.inr (Or.inr ⟨hevent, rfl⟩)⟩

theorem map_some_eq_ok {r : Result DecodedLog} {decoded : DecodedLog} :
    r.map some = .ok (some decoded) ↔ r = .ok decoded := by
  simp

section Topic

variable {event : String} {indexed : List String} {standard : TokenStandard} {decoded : DecodedLog}

/-- What the decoder does with a log that has a first topic. -/
theorem decode_log_as_cons (hlog : log.topics = event :: indexed) :
    decode_log_as keccak256 parse_bytes log standard
      = if to_ascii_lowercase event = transfer keccak256 ∧
            (standard = .Erc20 ∨ standard = .Erc721) then do
          validate_transfer_shape_matches_standard keccak256 log standard
          (decode_transfer parse_bytes log standard).map some
        else if to_ascii_lowercase event = transfer_single keccak256 ∧ standard = .Erc1155 then
          (decode_transfer_single parse_bytes log).map some
        else if to_ascii_lowercase event = transfer_batch keccak256 ∧ standard = .Erc1155 then
          (decode_transfer_batch parse_bytes log).map some
        else .ok none := by
  unfold decode_log_as
  rw [hlog]

/-- `Transfer` under ERC-20: two indexed parties, and one word of data. -/
theorem decode_log_as_erc20_iff (htopics : EventTopics keccak256) (hreads : ReadsHex parse_bytes)
    (hhex : ∀ topic ∈ log.topics, HexText topic) (hdata : HexText log.data)
    (hlog : log.topics = event :: indexed) (htransfer : to_ascii_lowercase event = transfer keccak256) :
    decode_log_as keccak256 parse_bytes log .Erc20 = .ok (some decoded) ↔
      AbiEvent keccak256 log .Erc20 decoded := by
  have hmem : ∀ topic ∈ indexed, HexText topic :=
    fun topic h => hhex topic (hlog ▸ List.mem_cons_of_mem _ h)
  rw [decode_log_as_cons hlog, if_pos ⟨htransfer, Or.inl rfl⟩, bind_eq_ok]
  constructor
  · rintro ⟨_, hshape, h⟩
    rcases (validate_transfer_shape_iff htopics hdata hlog htransfer).1 hshape with
      ⟨hother, -⟩ | ⟨-, hcount, hlength⟩
    · cases hother
    · obtain ⟨«from», «to», rfl⟩ := List.length_eq_two.1 hcount
      exact (decode_transfer_erc20_iff hreads hlog (hmem «from» (by simp)) (hmem «to» (by simp))
        hdata hlength htransfer).1 (map_some_eq_ok.1 h)
  · intro h
    have hevent := h
    cases h with
    | @erc20 event' «from» «to» h _ _ _ hlength =>
      obtain ⟨-, rfl⟩ := List.cons.inj (hlog.symm.trans h)
      refine ⟨(), (validate_transfer_shape_iff htopics hdata hlog htransfer).2
        (Or.inr ⟨rfl, rfl, hlength⟩), map_some_eq_ok.2 ?_⟩
      exact (decode_transfer_erc20_iff hreads hlog (hmem «from» (by simp)) (hmem «to» (by simp))
        hdata hlength htransfer).2 hevent

/-- `Transfer` under ERC-721: two indexed parties and an indexed token, and no data. -/
theorem decode_log_as_erc721_iff (htopics : EventTopics keccak256) (hreads : ReadsHex parse_bytes)
    (hhex : ∀ topic ∈ log.topics, HexText topic) (hdata : HexText log.data)
    (hlog : log.topics = event :: indexed) (htransfer : to_ascii_lowercase event = transfer keccak256) :
    decode_log_as keccak256 parse_bytes log .Erc721 = .ok (some decoded) ↔
      AbiEvent keccak256 log .Erc721 decoded := by
  have hmem : ∀ topic ∈ indexed, HexText topic :=
    fun topic h => hhex topic (hlog ▸ List.mem_cons_of_mem _ h)
  rw [decode_log_as_cons hlog, if_pos ⟨htransfer, Or.inr rfl⟩, bind_eq_ok]
  constructor
  · rintro ⟨_, hshape, h⟩
    rcases (validate_transfer_shape_iff htopics hdata hlog htransfer).1 hshape with
      ⟨-, hcount, hlength⟩ | ⟨hother, -⟩
    · obtain ⟨«from», «to», token, rfl⟩ := List.length_eq_three.1 hcount
      exact (decode_transfer_erc721_iff hreads hlog (hmem «from» (by simp)) (hmem «to» (by simp))
        (hmem token (by simp)) (List.eq_nil_of_length_eq_zero hlength) htransfer).1
          (map_some_eq_ok.1 h)
    · cases hother
  · intro h
    have hevent := h
    cases h with
    | @erc721 event' «from» «to» token h _ _ _ _ hempty =>
      obtain ⟨-, rfl⟩ := List.cons.inj (hlog.symm.trans h)
      refine ⟨(), (validate_transfer_shape_iff htopics hdata hlog htransfer).2
        (Or.inl ⟨rfl, rfl, by rw [hempty]; rfl⟩), map_some_eq_ok.2 ?_⟩
      exact (decode_transfer_erc721_iff hreads hlog (hmem «from» (by simp)) (hmem «to» (by simp))
        (hmem token (by simp)) hempty htransfer).2 hevent

/-- A first topic that is none of the events of the standard is skipped. -/
theorem decode_log_as_other_iff (hlog : log.topics = event :: indexed)
    (htransfer : ¬ (to_ascii_lowercase event = transfer keccak256 ∧
      (standard = .Erc20 ∨ standard = .Erc721)))
    (hsingle : ¬ (to_ascii_lowercase event = transfer_single keccak256 ∧ standard = .Erc1155))
    (hbatch : ¬ (to_ascii_lowercase event = transfer_batch keccak256 ∧ standard = .Erc1155)) :
    decode_log_as keccak256 parse_bytes log standard = .ok (some decoded) ↔
      AbiEvent keccak256 log standard decoded := by
  rw [decode_log_as_cons hlog, if_neg htransfer, if_neg hsingle, if_neg hbatch]
  constructor
  · intro h
    cases Except.ok.inj h
  · intro h
    obtain ⟨event', indexed', hlog', hcases⟩ := h.first_topic
    obtain ⟨rfl, -⟩ := List.cons.inj (hlog.symm.trans hlog')
    rcases hcases with h | h | h
    · exact absurd h htransfer
    · exact absurd h hsingle
    · exact absurd h hbatch

end Topic

/-- Under a standard the decoder accepts exactly the events the ABI has for it. The cases are
those of `decode_log_as`: no topic at all, `Transfer` under one of the two standards that have
it, the two events of ERC-1155, and every other topic. -/
theorem decode_log_as_iff (htopics : EventTopics keccak256) (hreads : ReadsHex parse_bytes)
    (hhex : ∀ topic ∈ log.topics, HexText topic) (hdata : HexText log.data)
    (hfits : (hex_digits log.data).length < 2 ^ 63) {standard : TokenStandard}
    {decoded : DecodedLog} :
    decode_log_as keccak256 parse_bytes log standard = .ok (some decoded) ↔
      AbiEvent keccak256 log standard decoded := by
  cases hlog : log.topics with
  | nil =>
    unfold decode_log_as
    rw [hlog]
    constructor
    · intro h
      cases Except.ok.inj h
    · intro h
      obtain ⟨_, _, hlog', -⟩ := h.first_topic
      rw [hlog] at hlog'
      cases hlog'
  | cons event indexed =>
    by_cases htransfer : to_ascii_lowercase event = transfer keccak256 ∧
        (standard = .Erc20 ∨ standard = .Erc721)
    · rcases htransfer with ⟨hevent, rfl | rfl⟩
      · exact decode_log_as_erc20_iff htopics hreads hhex hdata hlog hevent
      · exact decode_log_as_erc721_iff htopics hreads hhex hdata hlog hevent
    by_cases hsingle : to_ascii_lowercase event = transfer_single keccak256 ∧ standard = .Erc1155
    · obtain ⟨hevent, rfl⟩ := hsingle
      rw [decode_log_as_cons hlog, if_neg htransfer, if_pos ⟨hevent, rfl⟩, map_some_eq_ok]
      exact decode_transfer_single_iff htopics hreads hhex hdata hlog hevent
    by_cases hbatch : to_ascii_lowercase event = transfer_batch keccak256 ∧ standard = .Erc1155
    · obtain ⟨hevent, rfl⟩ := hbatch
      rw [decode_log_as_cons hlog, if_neg htransfer, if_neg hsingle, if_pos ⟨hevent, rfl⟩,
        map_some_eq_ok]
      exact decode_transfer_batch_iff htopics hreads hhex hdata hfits hlog hevent
    exact decode_log_as_other_iff hlog htransfer hsingle hbatch

/-- On hex text the decoder accepts exactly the transfer events of the ABI, and
returns what they spell. -/
theorem decode_log_iff (htopics : EventTopics keccak256) (hreads : ReadsHex parse_bytes)
    (hhex : ∀ topic ∈ log.topics, HexText topic) (hdata : HexText log.data)
    (hfits : (hex_digits log.data).length < 2 ^ 63) {standard : TokenStandard}
    (hexplicit : standard ≠ .Auto) {decoded : DecodedLog} :
    decode_log keccak256 parse_bytes log standard = .ok (some decoded) ↔
      AbiEvent keccak256 log standard decoded := by
  have hauto : standard.is_auto = false := by
    unfold TokenStandard.is_auto
    exact beq_eq_false_iff_ne.2 hexplicit
  unfold decode_log
  rw [hauto]
  simp only [Bool.false_eq_true, if_false]
  exact decode_log_as_iff htopics hreads hhex hdata hfits

/-! ## The canonical encoding of a batch

The decoder accepts more encodings than the canonical one, since offsets may point anywhere
behind the head. The canonical encoding is the one a contract emits: two offsets, the first
list with its length, the second with its length. Decoding it gives the two lists back, which
is the round trip of the format.
-/

/-- A block of words as hex text. -/
def block_text (ws : List Nat) : List Char := ws.flatMap (hex_text 64)

theorem length_block_text (ws : List Nat) : (block_text ws).length = 64 * ws.length := by
  induction ws with
  | nil => rfl
  | cons w rest ih =>
    unfold block_text at ih ⊢
    rw [List.flatMap_cons, List.length_append, length_hex_text, ih, List.length_cons]
    omega

theorem isHex_block_text (ws : List Nat) : IsHex (block_text ws) := by
  intro c hc
  obtain ⟨w, -, hmem⟩ := List.mem_flatMap.1 hc
  exact isHex_hex_text 64 w c hmem

/-- The first word of a block, and the words after it. -/
theorem words_append {block rest : List Char} (hblock : block.length = 64) :
    words (block ++ rest) = hex_number block :: words rest := by
  have hcount : (block ++ rest).length / 64 = rest.length / 64 + 1 := by
    rw [List.length_append, hblock]
    omega
  have hfirst : word (block ++ rest) 0 = hex_number block := by
    unfold word word_digits
    rw [Nat.zero_mul, List.drop_zero, ← hblock, List.take_left]
  have hnext : ∀ i, word (block ++ rest) (i + 1) = word rest i := by
    intro i
    have hindex : (i + 1) * 64 = block.length + i * 64 := by omega
    unfold word word_digits
    rw [hindex, ← List.drop_drop, List.drop_left]
  unfold words
  rw [hcount, List.range_succ_eq_map, List.map_cons, List.map_map, hfirst]
  congr 1
  exact List.map_congr_left fun i _ => hnext i

/-- Words that fit in 32 bytes are read back from their text. -/
theorem words_block_text {ws : List Nat} (h : ∀ w ∈ ws, w < 2 ^ 256) : words (block_text ws) = ws := by
  induction ws with
  | nil => rfl
  | cons w rest ih =>
    have hw : w < 16 ^ 64 := by
      have h256 : (16 : Nat) ^ 64 = 2 ^ 256 := by decide
      rw [h256]
      exact h w (List.mem_cons_self ..)
    have htail : block_text (w :: rest) = hex_text 64 w ++ block_text rest := by
      unfold block_text
      rw [List.flatMap_cons]
    rw [htail, words_append (length_hex_text 64 w), hex_number_hex_text hw,
      ih fun v hv => h v (List.mem_cons_of_mem _ hv)]

/-- The data of a `TransferBatch` of two lists. -/
def batch_data (ids amounts : List Nat) : String :=
  String.ofList ('0' :: 'x' :: block_text (Abi.encodePair ids amounts))

theorem hex_digits_batch_data (ids amounts : List Nat) :
    hex_digits (batch_data ids amounts) = block_text (Abi.encodePair ids amounts) := by
  unfold hex_digits batch_data
  rw [String.toList_ofList]
  rfl

theorem hexText_batch_data (ids amounts : List Nat) : HexText (batch_data ids amounts) := by
  refine ⟨block_text (Abi.encodePair ids amounts), ?_, isHex_block_text _⟩
  unfold strip_0x batch_data
  rw [String.toList_ofList]
  rfl

/-- The bytes of such data, two of which are the `0x`. -/
theorem byte_len_batch_data (ids amounts : List Nat) :
    byte_len (batch_data ids amounts).toList = 64 * (ids.length + amounts.length + 4) + 2 := by
  have hblock : byte_len (block_text (Abi.encodePair ids amounts))
      = 64 * (ids.length + amounts.length + 4) := by
    rw [(isHex_block_text _).ascii.byte_len, length_block_text, Abi.length_encodePair]
  unfold batch_data
  rw [String.toList_ofList]
  unfold byte_len at hblock ⊢
  rw [List.map_cons, List.map_cons, List.sum_cons, List.sum_cons, hblock]
  show 1 + (1 + _) = _
  omega

/-- A batch entry and the list items it came from. -/
theorem mem_batch_entries {operator «from» «to» : String} {ids amounts : List String} {index : Nat}
    {entry : DecodedLedgerEntry}
    (h : (batch_entries operator «from» «to» ids amounts)[index]? = some entry) :
    entry.batch_index = as_i32 index := by
  unfold batch_entries at h
  rw [List.getElem?_mapIdx] at h
  obtain ⟨pair, -, rfl⟩ := Option.map_eq_some_iff.1 h
  dsimp only

/-- The entries of a batch of two lists of one length carry these lists. -/
theorem batch_entries_lists {operator «from» «to» : String} {ids amounts : List String}
    (h : ids.length = amounts.length) :
    (batch_entries operator «from» «to» ids amounts).map (·.token_id) = ids ∧
      (batch_entries operator «from» «to» ids amounts).map (·.amount) = amounts := by
  have hlength : (batch_entries operator «from» «to» ids amounts).length = ids.length := by
    unfold batch_entries
    rw [List.length_mapIdx, List.length_zip, h, Nat.min_self]
  unfold batch_entries at hlength ⊢
  constructor
  · refine List.ext_getElem (by rw [List.length_map, hlength]) fun i _ _ => ?_
    rw [List.getElem_map, List.getElem_mapIdx, List.getElem_zip]
  · refine List.ext_getElem (by rw [List.length_map, hlength, h]) fun i _ _ => ?_
    rw [List.getElem_map, List.getElem_mapIdx, List.getElem_zip]

/-- Below the range of an `i32`, an entry of an event has the index it stands at. -/
theorem batch_index_of_event {standard : TokenStandard} {decoded : DecodedLog}
    (h : AbiEvent keccak256 log standard decoded) {index : Nat} {entry : DecodedLedgerEntry}
    (hentry : decoded.entries[index]? = some entry) (hindex : index < 2 ^ 31) :
    entry.batch_index = index := by
  have hone : ∀ e : DecodedLedgerEntry, e.batch_index = 0 → [e][index]? = some entry →
      entry.batch_index = index := by
    intro e he hget
    rw [List.getElem?_singleton] at hget
    split at hget
    · rename_i hzero
      cases hget
      rw [he, hzero]
      rfl
    · cases hget
  cases h with
  | erc20 => exact hone _ rfl hentry
  | erc721 => exact hone _ rfl hentry
  | erc1155_single => exact hone _ rfl hentry
  | erc1155_batch => rw [mem_batch_entries hentry, as_i32_of_lt hindex]

/-- Decoding the canonical encoding of two lists gives back the lists. -/
theorem decode_log_batch_data (htopics : EventTopics keccak256) (hreads : ReadsHex parse_bytes)
    (hhex : ∀ topic ∈ log.topics, HexText topic) {event operator «from» «to» : String}
    (hlog : log.topics = [event, operator, «from», «to»])
    (hevent : to_ascii_lowercase event = transfer_batch keccak256) (hoperator : IsWord operator)
    (hfrom : IsWord «from») (hto : IsWord «to») {ids amounts : List Nat}
    (hdata : log.data = batch_data ids amounts) (hlength : ids.length = amounts.length)
    (hcount : ids.length < 2 ^ 31) (hwords : ∀ n ∈ ids ++ amounts, n < 2 ^ 256) :
    decode_log keccak256 parse_bytes log .Erc1155 = .ok (some
      { event_name := "TransferBatch"
        entries := batch_entries (address_of_topic operator) (address_of_topic «from»)
          (address_of_topic «to») (ids.map toString) (amounts.map toString) }) := by
  have hdigits : hex_digits log.data = block_text (Abi.encodePair ids amounts) := by
    rw [hdata, hex_digits_batch_data]
  have hbytes : (hex_digits log.data).length = 64 * (ids.length + amounts.length + 4) := by
    rw [hdigits, length_block_text, Abi.length_encodePair]
  -- the words of the data are those of the encoding, each below `2 ^ 256`
  have hblock : words (hex_digits log.data) = Abi.encodePair ids amounts := by
    rw [hdigits]
    refine words_block_text fun w hw => ?_
    rcases Abi.mem_encodePair hw with rfl | rfl | rfl | hmem | rfl | hmem
    · omega
    · omega
    · omega
    · exact hwords w (List.mem_append_left _ hmem)
    · omega
    · exact hwords w (List.mem_append_right _ hmem)
  refine (decode_log_iff htopics hreads hhex (hdata ▸ hexText_batch_data ids amounts) (by omega)
    (by decide)).2 ?_
  -- the offsets of the encoding read the two lists back
  refine AbiEvent.erc1155_batch hlog hevent hoperator hfrom hto (by omega) hblock ?_ ?_ hlength
  · rw [hblock]
    exact Abi.readArray_encodePair_fst ids amounts
  · rw [hblock]
    exact Abi.readArray_encodePair_snd ids amounts

end Events

/-- `decode_log` is the ABI's event decoder: it accepts exactly the events of the
ABI, with the entries they spell in order, and gives back the lists of a canonically
encoded batch. Data longer than `2 ^ 63` digits is no text a `String` can hold. -/
theorem decode_log_is_the_abi_decoder {keccak256 : String → String}
    {parse_bytes : List Char → Option Nat} (htopics : EventTopics keccak256)
    (hreads : ReadsHex parse_bytes) :
    (∀ (log : RpcLog) (standard : TokenStandard), standard ≠ .Auto →
      (∀ topic ∈ log.topics, HexText topic) → HexText log.data →
      (hex_digits log.data).length < 2 ^ 63 → ∀ decoded : DecodedLog,
        (decode_log keccak256 parse_bytes log standard = .ok (some decoded) ↔
          AbiEvent keccak256 log standard decoded) ∧
        (AbiEvent keccak256 log standard decoded → ∀ (index : Nat) (entry : DecodedLedgerEntry),
          decoded.entries[index]? = some entry → index < 2 ^ 31 → entry.batch_index = index)) ∧
    ∀ (log : RpcLog) (event operator «from» «to» : String) (ids amounts : List Nat),
      log.topics = [event, operator, «from», «to»] → (∀ topic ∈ log.topics, HexText topic) →
      to_ascii_lowercase event = transfer_batch keccak256 →
      IsWord operator → IsWord «from» → IsWord «to» → log.data = batch_data ids amounts →
      ids.length = amounts.length → ids.length < 2 ^ 31 → (∀ n ∈ ids ++ amounts, n < 2 ^ 256) →
      ∃ decoded, decode_log keccak256 parse_bytes log .Erc1155 = .ok (some decoded) ∧
        decoded.entries.map (·.token_id) = ids.map toString ∧
        decoded.entries.map (·.amount) = amounts.map toString := by
  constructor
  · intro log standard hexplicit hhex hdata hfits decoded
    refine ⟨decode_log_iff htopics hreads hhex hdata hfits hexplicit, ?_⟩
    intro hevent index entry hentry hindex
    exact batch_index_of_event hevent hentry hindex
  · intro log event operator «from» «to» ids amounts hlog hhex hevent hoperator hfrom hto hdata
      hlength hcount hwords
    have hsame : (ids.map (toString : Nat → String)).length
        = (amounts.map (toString : Nat → String)).length := by
      rw [List.length_map, List.length_map, hlength]
    exact ⟨_, decode_log_batch_data htopics hreads hhex hlog hevent hoperator hfrom hto hdata hlength
      hcount hwords, batch_entries_lists hsame⟩

/-! ## A batch of two tokens -/

/-- The digests of the three signatures. -/
def event_digest (signature : String) : String :=
  if signature = "Transfer(address,address,uint256)" then
    "ddf252ad1be2c89b69c2b068fc378daa952ba7f163c4a11628f55a4df523b3ef"
  else if signature = "TransferSingle(address,address,address,uint256,uint256)" then
    "c3d58168c5ae7397731d063d5bbf3d657854427343f4c083240f7aacaa2d0f62"
  else "4a39dc06d4c0dbc64b70af90fd698a233a518aa5d07e595d983b8c0526c8f7fb"

/-- Hex digits as the number they spell. -/
def parse_hex_digits (digits : List Char) : Option Nat :=
  if digits = [] then none else hex_value digits

/-- A batch of 5 of token 1 and 7 of token 2. -/
def two_token_batch : RpcLog :=
  { address := "0xc0c0c0c0c0c0c0c0c0c0c0c0c0c0c0c0c0c0c0c0"
    topics := ["0x4A39DC06d4c0dbc64b70af90fd698a233a518aa5d07e595d983b8c0526c8f7fb",
      "0x000000000000000000000000AAaaaaaaaaaaaaaaaaaaaaaaaaaaaaaaaaaaaaaa",
      "0x000000000000000000000000aaaaaaaaaaaaaaaaaaaaaaaaaaaaaaaaaaaaaaaa",
      "0x000000000000000000000000bbbbbbbbbbbbbbbbbbbbbbbbbbbbbbbbbbbbbbbb"]
    data := batch_data [1, 2] [5, 7]
    block_number := "0x1"
    transaction_hash := "0xd1"
    transaction_index := none
    log_index := "0x0"
    block_hash := "0xb1"
    block_timestamp := none }

theorem event_digest_topics : EventTopics event_digest :=
  ⟨by decide +kernel, by decide +kernel, by decide +kernel⟩

theorem parse_hex_digits_reads : ReadsHex parse_hex_digits := by
  intro digits hne hhex
  unfold parse_hex_digits
  rw [if_neg hne, hex_value_eq_hex_number hhex]

theorem decode_log_is_the_abi_decoder_two_tokens :
    ∃ decoded, decode_log event_digest parse_hex_digits two_token_batch .Erc1155
        = .ok (some decoded) ∧
      decoded.entries.map (·.token_id) = ["1", "2"] ∧
      decoded.entries.map (·.amount) = ["5", "7"] := by
  have hhex : ∀ topic ∈ two_token_batch.topics, HexText topic := by
    intro topic htopic
    refine ⟨hex_digits topic, ?_, ?_⟩
    · revert topic
      decide +kernel
    · revert topic
      unfold IsHex
      decide +kernel
  exact (decode_log_is_the_abi_decoder event_digest_topics parse_hex_digits_reads).2
    two_token_batch _ _ _ _ [1, 2] [5, 7] rfl hhex (by decide +kernel)
    (by unfold IsWord; decide +kernel) (by unfold IsWord; decide +kernel)
    (by unfold IsWord; decide +kernel) rfl rfl (by decide) (by decide)

end EvmIndexer
