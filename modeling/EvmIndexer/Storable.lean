/-
What the decoder accepts and the ledger cannot store.

Three layers state what an entry is: the decoder slices addresses out of topics,
the domain constructors check them, and the constraints of `ledger_entries` check
the row. They agree on everything but two points. The decoder does not look at the
digits it slices, which `Address::new` does; and it decodes a transfer from the
zero address to the zero address, which `LedgerEntry::new` refuses and no row of
`ledger_entries` can hold.

`decoded_entry` says once what an entry of a decoded log is made of, and the main
result reads off it that these two points are all (`decoded_entry_storable_iff`).
-/
import EvmIndexer.AbiEvents
import EvmIndexer.Domain
import EvmIndexer.Ledger

set_option autoImplicit false

namespace EvmIndexer

/-! ## An entry the ledger can store

The three layers are compared on one entry. It is storable if the constructors of the domain
take its addresses, hashes and amount as they are, and if its row passes the checks of the
table and has the columns the domain's entry has.
-/

/-- An entry that the domain constructors accept unchanged, and whose row keeps the
constraints of `ledger_entries` and says what `LedgerEntry::new` says. -/
structure Storable (parseAmount : AmountParser) (entry : DecodedLedgerEntry) : Prop where
  operator : ∀ text, entry.operator = some text →
    ∃ operator, Address.new text = .ok operator ∧ operator.as_str = text
  amount : ∃ amount, TokenAmount.new entry.amount = .ok amount
  parsed : ∃ amount, parse_amount parseAmount entry.amount = .ok amount
  parties : ∃ «from» «to», Address.new entry.«from» = .ok «from» ∧ «from».as_str = entry.«from» ∧
    Address.new entry.«to» = .ok «to» ∧ «to».as_str = entry.«to» ∧
    ∀ input : LedgerEntryInput, input.«from» = «from» → input.«to» = «to» →
      ∃ ledger_entry, LedgerEntry.new input = .ok ledger_entry ∧
        ∀ id source log event_id row,
          new_ledger_entry_row parseAmount id source log event_id entry = .ok row →
          row.movement_type = ledger_entry.movement_type ∧
          row.from_address = ledger_entry.«from».map (·.as_str) ∧
          row.to_address = ledger_entry.«to».map (·.as_str)
  row : ∀ id source log event_id row,
    new_ledger_entry_row parseAmount id source log event_id entry = .ok row →
    (row.from_address ≠ none ∨ row.to_address ≠ none) ∧ 0 ≤ row.amount ∧
      fits_numeric_78_0 row.amount ∧ row.token_standard ≠ .Auto

/-! ## Addresses

The decoder cuts the last 20 bytes off a topic and puts `0x` in front, whatever the
characters are. The constructor asks for 40 hex digits. On a cut that succeeded the length is
right, so only the digits are left to decide.
-/

/-- The digits of the address in a topic: its last 20 bytes. -/
def address_digits (topic : String) : List Char :=
  (byte_slice (hex_digits topic) 24 64).getD []

/-- The text of an address of some digits. -/
def address_text (digits : List Char) : String :=
  to_ascii_lowercase (String.ofList ('0' :: 'x' :: digits))

theorem toList_address_text (digits : List Char) :
    (address_text digits).toList = '0' :: 'x' :: digits.map Char.toLower := by
  have hzero : Char.toLower '0' = '0' := by decide
  have hx : Char.toLower 'x' = 'x' := by decide
  unfold address_text to_ascii_lowercase
  rw [String.toList_ofList, String.toList_ofList, List.map_cons, List.map_cons, hzero, hx]

theorem normalize_hex_eq_some {digits : Nat} {value : String} {hex : HexValue digits} :
    normalize_hex digits value = some hex ↔
      IsHexValue digits (to_ascii_lowercase value).toList ∧ hex.as_str = to_ascii_lowercase value := by
  obtain ⟨as_str, valid, lower⟩ := hex
  unfold normalize_hex
  split
  · rename_i h
    rw [Option.some.injEq, HexValue.mk.injEq]
    exact ⟨fun e => ⟨h, e.symm⟩, fun e => e.2.symm⟩
  · rename_i h
    refine ⟨fun e => ?_, fun e => absurd e.1 h⟩
    cases e

/-- The text of an address passes the checks exactly where its digits are hex. -/
theorem isHexValue_address_text {digits : List Char} (hlength : byte_len digits = 40) :
    IsHexValue 40 (address_text digits).toList ↔ IsHex digits := by
  rw [toList_address_text, ← isHex_map_toLower]
  have hbytes : byte_len ('0' :: 'x' :: digits.map Char.toLower) = 40 + 2 := by
    have hmap : ((digits.map Char.toLower).map Char.utf8Size).sum = 40 :=
      (byte_len_map_toLower digits).trans hlength
    unfold byte_len
    rw [List.map_cons, List.map_cons, List.sum_cons, List.sum_cons, hmap]
    decide
  exact ⟨fun h => h.2.2, fun h => ⟨hbytes, ⟨_, rfl⟩, h⟩⟩

/-- The constructor accepts the text of an address exactly where its digits are hex,
and leaves it as it is. -/
theorem address_new_iff {digits : List Char} (hlength : byte_len digits = 40) {address : Address} :
    Address.new (address_text digits) = .ok address ↔
      IsHex digits ∧ address.as_str = address_text digits := by
  have hlower : to_ascii_lowercase (address_text digits) = address_text digits :=
    to_ascii_lowercase_idem _
  have hnew : Address.new (address_text digits) = .ok address ↔
      normalize_hex 40 (address_text digits) = some address := by
    unfold Address.new
    cases normalize_hex 40 (address_text digits) <;> simp
  rw [hnew, normalize_hex_eq_some, hlower, isHexValue_address_text hlength]

theorem exists_address {digits : List Char} (hlength : byte_len digits = 40) (h : IsHex digits) :
    ∃ address, Address.new (address_text digits) = .ok address :=
  ⟨⟨address_text digits, (isHexValue_address_text hlength).2 h, to_ascii_lowercase_idem _⟩,
    (address_new_iff hlength).2 ⟨h, rfl⟩⟩

/-- The zero address is the one of 40 zeros. -/
theorem address_text_eq_zero_iff {digits : List Char} (hlength : byte_len digits = 40)
    (hhex : IsHex digits) :
    address_text digits = Address.zero.as_str ↔ ∀ c ∈ digits, c = '0' := by
  have hcount : digits.length = 40 := hhex.ascii.byte_len ▸ hlength
  have hzero : Address.zero.as_str.toList = '0' :: 'x' :: List.replicate 40 '0' := by decide
  rw [← String.toList_inj, toList_address_text, hzero, List.cons_inj_right, List.cons_inj_right,
    List.eq_replicate_iff, List.length_map, List.forall_mem_map]
  constructor
  · rintro ⟨-, hall⟩ c hc
    exact (toLower_spec c).2.2.1 (hall c hc)
  · intro hall
    refine ⟨hcount, fun c hc => ?_⟩
    rw [hall c hc]
    decide

/-- A topic that is sliced is sliced into 40 bytes. -/
theorem topic_address_eq_ok {topic address : String} (h : topic_address topic = .ok address) :
    byte_len (address_digits topic) = 40 ∧ address = address_text (address_digits topic) := by
  unfold topic_address at h
  simp only [bind_eq_ok, bail_eq_ok] at h
  obtain ⟨digits, hstrip, -, part, hslice, haddress⟩ := h
  have hpart : byte_slice digits 24 64 = some part := by
    unfold slice at hslice
    split at hslice
    · rename_i found hfound
      cases hslice
      exact hfound
    · cases hslice
  have haddress_digits : address_digits topic = part := by
    unfold address_digits
    rw [hex_digits_of_strip_0x hstrip, hpart, Option.getD_some]
  rw [haddress_digits]
  refine ⟨?_, (Except.ok.inj haddress).symm⟩
  unfold byte_slice at hpart
  obtain ⟨tail, -, hpart⟩ := Option.bind_eq_some_iff.1 hpart
  obtain ⟨split, hsplit, rfl⟩ := Option.map_eq_some_iff.1 hpart
  exact (byte_len_of_split hsplit).1

/-! ## What an entry of a decoded log is made of

Each event of the three standards has its parties in fixed topics, and its amounts in words
of the data or, for an ERC-721 token, nowhere. The decoder bounds numbers by the digits of a
word, so an amount is below `2 ^ 256`.
-/

section Decoded

variable {keccak256 : String → String} {parse_bytes : List Char → Option Nat}

/-- `BigUint::parse_bytes` in radix 16 reads no more than its digits hold, so a word of the
data is below `2 ^ 256`, which the column has room for. -/
def ReadsBounded (parse_bytes : List Char → Option Nat) : Prop :=
  ∀ digits n, parse_bytes digits = some n → n < 16 ^ byte_len digits

variable (keccak256) in
/-- The topic a transfer event has its `from` in. -/
def from_topic (log : RpcLog) : String :=
  if to_ascii_lowercase (log.topic 0) = transfer keccak256 then log.topic 1 else log.topic 2

variable (keccak256) in
/-- The topic a transfer event has its `to` in. -/
def to_topic (log : RpcLog) : String :=
  if to_ascii_lowercase (log.topic 0) = transfer keccak256 then log.topic 2 else log.topic 3

variable (keccak256) in
/-- The topic an ERC-1155 event has its operator in. -/
def operator_topic (log : RpcLog) : Option String :=
  if to_ascii_lowercase (log.topic 0) = transfer keccak256 then none else some (log.topic 1)

variable (keccak256) in
/-- Where an entry of a log has its fields from. -/
structure DecodedFrom (log : RpcLog) (entry : DecodedLedgerEntry) : Prop where
  «from» : topic_address (from_topic keccak256 log) = .ok entry.«from»
  «to» : topic_address (to_topic keccak256 log) = .ok entry.«to»
  operator : (operator_topic keccak256 log).map topic_address = entry.operator.map Except.ok
  amount : ∃ n : Nat, n < 2 ^ 256 ∧ entry.amount = toString n
  standard : entry.token_standard ≠ .Auto

theorem decode_word_as_decimal_bounded (hbound : ReadsBounded parse_bytes) {word : List Char}
    {text : String} (h : decode_word_as_decimal parse_bytes word = .ok text) :
    ∃ n : Nat, n < 2 ^ 256 ∧ text = toString n := by
  unfold decode_word_as_decimal at h
  obtain ⟨value, hvalue, rfl⟩ := map_eq_ok.1 h
  refine ⟨value, ?_, rfl⟩
  unfold decode_word at hvalue
  simp only [bail_eq_ok, not_not] at hvalue
  obtain ⟨hlength, hvalue⟩ := hvalue
  have h256 : (16 : Nat) ^ 64 = 2 ^ 256 := by decide
  split at hvalue
  · rename_i n hn
    cases hvalue
    rw [← h256, ← hlength]
    exact hbound _ _ hn
  · cases hvalue

/-- The items of an array are numbers of 32 bytes. -/
theorem decode_items_bounded (hbound : ReadsBounded parse_bytes) {len : Nat} {ws : List (List Char)}
    {items : List String} (h : decode_items parse_bytes len ws = .ok items) :
    ∀ item ∈ items, ∃ n : Nat, n < 2 ^ 256 ∧ item = toString n := by
  induction len generalizing ws items with
  | zero =>
    cases h
    exact fun item hitem => absurd hitem List.not_mem_nil
  | succ len ih =>
    cases ws with
    | nil => cases h
    | cons w rest =>
      rw [decode_items, bind_eq_ok] at h
      obtain ⟨first, hfirst, h⟩ := h
      rw [bind_eq_ok] at h
      obtain ⟨tail, htail, h⟩ := h
      cases h
      intro item hitem
      rcases List.mem_cons.1 hitem with rfl | hitem
      · exact decode_word_as_decimal_bounded hbound hfirst
      · exact ih htail item hitem

theorem decode_dynamic_uint_array_bounded (hbound : ReadsBounded parse_bytes)
    {ws : List (List Char)} {offset : Nat} {items : List String}
    (h : decode_dynamic_uint_array parse_bytes ws offset = .ok items) :
    ∀ item ∈ items, ∃ n : Nat, n < 2 ^ 256 ∧ item = toString n := by
  unfold decode_dynamic_uint_array at h
  rw [bail_eq_ok] at h
  obtain ⟨-, h⟩ := h
  split at h
  · cases h
  · rw [bind_eq_ok] at h
    obtain ⟨len, -, h⟩ := h
    exact decode_items_bounded hbound h

theorem decode_transfer_entry (hbound : ReadsBounded parse_bytes) {log : RpcLog}
    (hevent : to_ascii_lowercase (log.topic 0) = transfer keccak256) {standard : TokenStandard}
    {decoded : DecodedLog} (h : decode_transfer parse_bytes log standard = .ok decoded) :
    ∀ entry ∈ decoded.entries, DecodedFrom keccak256 log entry := by
  have hparties : from_topic keccak256 log = log.topic 1 ∧ to_topic keccak256 log = log.topic 2 ∧
      operator_topic keccak256 log = none := ⟨if_pos hevent, if_pos hevent, if_pos hevent⟩
  obtain ⟨hfrom_topic, hto_topic, hoperator⟩ := hparties
  unfold decode_transfer at h
  rw [bind_eq_ok] at h
  obtain ⟨⟨«from», «to», token_id, amount⟩, hfields, h⟩ := h
  cases h
  intro entry hentry
  rw [List.mem_singleton.1 hentry]
  -- the parties are topics of the log; the token and the amount depend on the standard
  cases standard with
  | Auto => cases hfields
  | Erc1155 => cases hfields
  | Erc20 =>
    simp only [bind_eq_ok] at hfields
    obtain ⟨_, -, word, hword, text, htext, source, hsource, target, htarget, hfields⟩ := hfields
    cases hfields
    exact ⟨hfrom_topic ▸ hsource, hto_topic ▸ htarget, by rw [hoperator]; rfl,
      decode_word_as_decimal_bounded hbound htext, fun e => by cases e⟩
  | Erc721 =>
    simp only [bind_eq_ok] at hfields
    obtain ⟨_, -, source, hsource, target, htarget, word, hword, text, htext, hfields⟩ := hfields
    cases hfields
    exact ⟨hfrom_topic ▸ hsource, hto_topic ▸ htarget, by rw [hoperator]; rfl,
      ⟨1, by decide, rfl⟩, fun e => by cases e⟩

section Erc1155

variable {log : RpcLog} (hevent : to_ascii_lowercase (log.topic 0) ≠ transfer keccak256)

include hevent

/-- The three addresses of an ERC-1155 event. -/
theorem erc1155_parties {entry : DecodedLedgerEntry} {operator : String}
    (hoperator : topic_address (log.topic 1) = .ok operator)
    (hfrom : topic_address (log.topic 2) = .ok entry.«from»)
    (hto : topic_address (log.topic 3) = .ok entry.«to») (hentry : entry.operator = some operator)
    (hamount : ∃ n : Nat, n < 2 ^ 256 ∧ entry.amount = toString n)
    (hstandard : entry.token_standard ≠ .Auto) : DecodedFrom keccak256 log entry := by
  have hfrom_topic : from_topic keccak256 log = log.topic 2 := if_neg hevent
  have hto_topic : to_topic keccak256 log = log.topic 3 := if_neg hevent
  have hoperator_topic : operator_topic keccak256 log = some (log.topic 1) := if_neg hevent
  refine ⟨hfrom_topic ▸ hfrom, hto_topic ▸ hto, ?_, hamount, hstandard⟩
  rw [hoperator_topic, hentry, Option.map_some, hoperator]
  rfl

theorem decode_transfer_single_entry (hbound : ReadsBounded parse_bytes) {decoded : DecodedLog}
    (h : decode_transfer_single parse_bytes log = .ok decoded) :
    ∀ entry ∈ decoded.entries, DecodedFrom keccak256 log entry := by
  unfold decode_transfer_single at h
  simp only [bind_eq_ok] at h
  obtain ⟨_, -, _, -, _, -, _, -, amount, hamount, operator, hoperator, source, hsource, target,
    htarget, h⟩ := h
  cases h
  intro entry hentry
  rw [List.mem_singleton.1 hentry]
  exact erc1155_parties hevent hoperator hsource htarget rfl
    (decode_word_as_decimal_bounded hbound hamount) (fun e => by cases e)

theorem decode_transfer_batch_entry (hbound : ReadsBounded parse_bytes) {decoded : DecodedLog}
    (h : decode_transfer_batch parse_bytes log = .ok decoded) :
    ∀ entry ∈ decoded.entries, DecodedFrom keccak256 log entry := by
  unfold decode_transfer_batch at h
  simp only [bind_eq_ok] at h
  obtain ⟨_, -, data, -, h⟩ := h
  -- a block with two offsets is the only one that goes on
  split at h
  · cases h
  rw [bind_eq_ok] at h
  obtain ⟨ids_offset, -, h⟩ := h
  split at h
  · cases h
  simp only [bind_eq_ok, bail_eq_ok] at h
  obtain ⟨amounts_offset, -, ids, -, amounts, hamounts, -, operator, hoperator, source, hsource,
    target, htarget, h⟩ := h
  cases h
  intro entry hentry
  obtain ⟨index, hlt, rfl⟩ := List.mem_mapIdx.1 hentry
  have hamount := decode_dynamic_uint_array_bounded hbound hamounts _
    (List.of_mem_zip (List.getElem_mem hlt)).2
  exact erc1155_parties hevent hoperator hsource htarget rfl hamount (fun e => by cases e)

end Erc1155

/-- Every entry of a decoded log has its parties from the topics of its event, and a
number of 32 bytes for its amount. -/
theorem decoded_entry (htopics : EventTopics keccak256) (hbound : ReadsBounded parse_bytes)
    {log : RpcLog} {standard : TokenStandard} {decoded : DecodedLog}
    (h : decode_log keccak256 parse_bytes log standard = .ok (some decoded)) :
    ∀ entry ∈ decoded.entries, DecodedFrom keccak256 log entry := by
  -- detection comes first, and then decodes under the standard it found
  have hexplicit : ∃ standard, decode_log_as keccak256 parse_bytes log standard
      = .ok (some decoded) := by
    unfold decode_log at h
    split at h
    · rw [bind_eq_ok] at h
      obtain ⟨detected, -, h⟩ := h
      cases detected with
      | none => cases h
      | some detected => exact ⟨detected, h⟩
    · exact ⟨standard, h⟩
  obtain ⟨standard, h⟩ := hexplicit
  unfold decode_log_as at h
  cases hlog : log.topics with
  | nil =>
    rw [hlog] at h
    cases h
  | cons topic0 rest =>
    rw [hlog] at h
    -- the first topic tells which event it is
    have htopic : log.topic 0 = topic0 := by
      unfold RpcLog.topic
      rw [hlog]
      rfl
    simp only at h
    split at h
    · rename_i hevent
      rw [bind_eq_ok] at h
      obtain ⟨_, -, h⟩ := h
      obtain ⟨found, hfound, hsome⟩ := map_eq_ok.1 h
      cases hsome
      exact decode_transfer_entry hbound (htopic ▸ hevent.1) hfound
    · split at h
      · rename_i hevent
        obtain ⟨found, hfound, hsome⟩ := map_eq_ok.1 h
        cases hsome
        refine decode_transfer_single_entry ?_ hbound hfound
        rw [htopic, hevent.1]
        exact htopics.transfer_ne_single.symm
      · split at h
        · rename_i hevent
          obtain ⟨found, hfound, hsome⟩ := map_eq_ok.1 h
          cases hsome
          refine decode_transfer_batch_entry ?_ hbound hfound
          rw [htopic, hevent.1]
          exact htopics.transfer_ne_batch.symm
        · cases h

/-! ## When the entries can be stored

An entry is refused for its addresses or for both ends being zero, and for nothing else: a
number of 32 bytes fits an amount and a `NUMERIC(78,0)`, and what the row says of the
movement is what the domain says, where the domain has an entry at all.
-/

variable (keccak256) in
/-- The addresses of a log's event are hex digits, and one of its two parties is not
the zero address. -/
structure PartiesStorable (log : RpcLog) : Prop where
  «from» : IsHex (address_digits (from_topic keccak256 log))
  «to» : IsHex (address_digits (to_topic keccak256 log))
  operator : ∀ topic, operator_topic keccak256 log = some topic → IsHex (address_digits topic)
  moved : ¬ ((∀ c ∈ address_digits (from_topic keccak256 log), c = '0') ∧
    ∀ c ∈ address_digits (to_topic keccak256 log), c = '0')

/-- The amount parser reads decimal digits as the number they spell, which is what the
decoder has written. Of other texts nothing is assumed. -/
def ReadsDecimal (parseAmount : AmountParser) : Prop :=
  ∀ n : Nat, parseAmount (toString n) = some { digits := n, scale := 0 }

/-- An address is stored as `None` exactly where it is zero. -/
theorem non_zero_address_as_str (address : Address) :
    non_zero_address address.as_str = (Address.non_zero address).map (·.as_str) := by
  have htext : Address.zero.as_str = "0x0000000000000000000000000000000000000000" := rfl
  unfold non_zero_address Address.non_zero Address.is_zero
  simp only [address.lower, ← htext]
  by_cases hzero : address.as_str = Address.zero.as_str
  · rw [if_pos hzero, if_pos (beq_iff_eq.2 hzero), Option.map_none]
  · rw [if_neg hzero, if_neg (fun h => hzero (beq_iff_eq.1 h)), Option.map_some]

/-- The ledger's movement type is the domain's, where the domain has one. -/
theorem movement_type_eq {«from» «to» : Address} {movement : MovementType}
    (h : MovementType.from_participants «from» «to» = .ok movement) :
    movement_type «from».as_str «to».as_str = movement := by
  unfold MovementType.from_participants at h
  unfold movement_type
  rw [non_zero_address_as_str, non_zero_address_as_str]
  unfold Address.non_zero
  cases hfrom : Address.is_zero «from» <;> cases hto : Address.is_zero «to» <;>
    rw [hfrom, hto] at h <;> cases h <;> rfl

/-- The domain has a movement type unless both ends are zero. -/
theorem from_participants_ok_iff {«from» «to» : Address} :
    (∃ movement, MovementType.from_participants «from» «to» = .ok movement) ↔
      ¬ («from».as_str = Address.zero.as_str ∧ «to».as_str = Address.zero.as_str) := by
  have hzero : ∀ address : Address,
      Address.is_zero address = true ↔ address.as_str = Address.zero.as_str := fun _ => beq_iff_eq
  unfold MovementType.from_participants
  rw [← hzero, ← hzero]
  cases Address.is_zero «from» <;> cases Address.is_zero «to» <;> simp

/-- What a ledger entry has of its input. -/
theorem ledger_entry_new_spec {input : LedgerEntryInput} {entry : LedgerEntry}
    (h : LedgerEntry.new input = .ok entry) :
    MovementType.from_participants input.«from» input.«to» = .ok entry.movement_type ∧
      entry.«from» = Address.non_zero input.«from» ∧ entry.«to» = Address.non_zero input.«to» := by
  unfold LedgerEntry.new at h
  cases hmovement : MovementType.from_participants input.«from» input.«to» with
  | error e =>
    rw [hmovement] at h
    cases h
  | ok movement =>
    rw [hmovement] at h
    cases h
    exact ⟨rfl, rfl, rfl⟩

theorem ledger_entry_new_of_movement {input : LedgerEntryInput} {movement : MovementType}
    (h : MovementType.from_participants input.«from» input.«to» = .ok movement) :
    ∃ entry, LedgerEntry.new input = .ok entry := by
  unfold LedgerEntry.new
  rw [h]
  exact ⟨_, rfl⟩

/-- The row of an entry, column by column. -/
theorem new_ledger_entry_row_columns {parseAmount : AmountParser} {id event_id : Uuid}
    {source : SourceRef} {log : RpcLog} {entry : DecodedLedgerEntry} {row : LedgerEntryRow}
    (h : new_ledger_entry_row parseAmount id source log event_id entry = .ok row) :
    row.movement_type = movement_type entry.«from» entry.«to» ∧
      row.from_address = non_zero_address entry.«from» ∧
      row.to_address = non_zero_address entry.«to» ∧ row.token_standard = entry.token_standard ∧
      ∃ amount, parse_amount parseAmount entry.amount = .ok amount ∧
        row.amount = numeric_78_0 amount := by
  unfold new_ledger_entry_row at h
  simp only [bind_eq_ok] at h
  obtain ⟨amount, hamount, _, -, _, -, _, -, hrow⟩ := h
  rw [← Except.ok.inj hrow]
  exact ⟨rfl, rfl, rfl, rfl, amount, hamount, rfl⟩

/-- A number of 32 bytes is an amount the domain and a `NUMERIC(78,0)` take. -/
theorem amount_storable {parseAmount : AmountParser} (hdecimal : ReadsDecimal parseAmount) {n : Nat}
    (hn : n < 2 ^ 256) : (∃ amount, TokenAmount.new (toString n) = .ok amount) ∧
      parse_amount parseAmount (toString n) = .ok { digits := n, scale := 0 } ∧
      numeric_78_0 { digits := n, scale := 0 } = n ∧ fits_numeric_78_0 n := by
  have hdigits : (toString n).toList ≠ [] ∧ (toString n).toList.all Char.isDigit = true := by
    have hvalue := decimal_value_toString n
    unfold decimal_value at hvalue
    split at hvalue
    · assumption
    · cases hvalue
  have hcolumn : (2 : Int) ^ 256 < 10 ^ 78 := by decide
  have hn' : (n : Int) < 2 ^ 256 := by exact_mod_cast hn
  refine ⟨⟨⟨toString n, hdigits⟩, dif_pos hdigits⟩, ?_, ?_, ?_, ?_⟩
  · unfold parse_amount
    rw [hdecimal n]
  · unfold numeric_78_0
    simp
  · exact lt_of_lt_of_le (by decide) (Int.natCast_nonneg n)
  · exact lt_trans hn' hcolumn

section Entry

variable {parseAmount : AmountParser} {log : RpcLog} {entry : DecodedLedgerEntry}
  (h : DecodedFrom keccak256 log entry)

include h

/-- What can be stored has hex addresses, and an end that is not zero. -/
theorem DecodedFrom.partiesStorable (hstorable : Storable parseAmount entry) :
    PartiesStorable keccak256 log := by
  obtain ⟨hfrom_length, hfrom_text⟩ := topic_address_eq_ok h.«from»
  obtain ⟨hto_length, hto_text⟩ := topic_address_eq_ok h.«to»
  obtain ⟨source, target, hsource, hsource_text, htarget, htarget_text, hnew⟩ := hstorable.parties
  rw [hfrom_text] at hsource hsource_text
  rw [hto_text] at htarget htarget_text
  have hfrom := ((address_new_iff hfrom_length).1 hsource).1
  have hto := ((address_new_iff hto_length).1 htarget).1
  refine ⟨hfrom, hto, ?_, ?_⟩
  · intro topic htopic
    have hoperator := h.operator
    rw [htopic, Option.map_some] at hoperator
    obtain ⟨text, htext, haddress⟩ := Option.map_eq_some_iff.1 hoperator.symm
    obtain ⟨hlength, rfl⟩ := topic_address_eq_ok haddress.symm
    obtain ⟨operator, hoperator', -⟩ := hstorable.operator _ htext
    exact ((address_new_iff hlength).1 hoperator').1
  · rintro ⟨hzero_from, hzero_to⟩
    obtain ⟨amount, -⟩ := hstorable.amount
    -- any identity will do: the constructor only looks at the two ends
    let hash : HexValue 64 :=
      { as_str := "0x0000000000000000000000000000000000000000000000000000000000000000"
        valid := by decide
        lower := by decide }
    obtain ⟨ledger_entry, hentry, -⟩ := hnew
      { identity := { event := { chain_id := 0, transaction_hash := hash, log_index := 0 }
                      batch_index := 0 }
        source_id := "", token_standard := entry.token_standard, operator := none
        «from» := source, «to» := target, token_id := "", amount, block_number := 0
        block_hash := hash, contract_address := source } rfl rfl
    refine from_participants_ok_iff.1 ⟨_, (ledger_entry_new_spec hentry).1⟩ ⟨?_, ?_⟩
    · rw [hsource_text]
      exact (address_text_eq_zero_iff hfrom_length hfrom).2 hzero_from
    · rw [htarget_text]
      exact (address_text_eq_zero_iff hto_length hto).2 hzero_to

/-- The two ends of a storable entry, as the domain and the row have them. -/
theorem DecodedFrom.parties (hparties : PartiesStorable keccak256 log) :
    ∃ source target movement, Address.new entry.«from» = .ok source ∧
      source.as_str = entry.«from» ∧ Address.new entry.«to» = .ok target ∧
      target.as_str = entry.«to» ∧
      MovementType.from_participants source target = .ok movement := by
  obtain ⟨hfrom_length, hfrom_text⟩ := topic_address_eq_ok h.«from»
  obtain ⟨hto_length, hto_text⟩ := topic_address_eq_ok h.«to»
  obtain ⟨source, hsource⟩ := exists_address hfrom_length hparties.«from»
  obtain ⟨target, htarget⟩ := exists_address hto_length hparties.«to»
  have hsource_text := ((address_new_iff hfrom_length).1 hsource).2
  have htarget_text := ((address_new_iff hto_length).1 htarget).2
  obtain ⟨movement, hmovement⟩ := from_participants_ok_iff.2 (by
    rintro ⟨hzero_from, hzero_to⟩
    rw [hsource_text, address_text_eq_zero_iff hfrom_length hparties.«from»] at hzero_from
    rw [htarget_text, address_text_eq_zero_iff hto_length hparties.«to»] at hzero_to
    exact hparties.moved ⟨hzero_from, hzero_to⟩)
  rw [hfrom_text, hto_text]
  exact ⟨source, target, movement, hsource, hsource_text, htarget, htarget_text, hmovement⟩

/-- With hex addresses and an end that is not zero, an entry can be stored. -/
theorem DecodedFrom.storable (hdecimal : ReadsDecimal parseAmount)
    (hparties : PartiesStorable keccak256 log) : Storable parseAmount entry := by
  obtain ⟨n, hn, hamount⟩ := h.amount
  obtain ⟨haccepted, hparsed, hcolumn, hfits⟩ := amount_storable hdecimal hn
  obtain ⟨source, target, movement, hsource, hsource_text, htarget, htarget_text, hmovement⟩ :=
    h.parties hparties
  refine ⟨?_, hamount ▸ haccepted, hamount ▸ ⟨_, hparsed⟩, ?_, ?_⟩
  · intro text htext
    have hoperator := h.operator
    rw [htext, Option.map_some] at hoperator
    obtain ⟨topic, htopic, haddress⟩ := Option.map_eq_some_iff.1 hoperator
    obtain ⟨hlength, rfl⟩ := topic_address_eq_ok haddress
    obtain ⟨operator, hoperator'⟩ := exists_address hlength (hparties.operator topic htopic)
    exact ⟨operator, hoperator', ((address_new_iff hlength).1 hoperator').2⟩
  · refine ⟨source, target, hsource, hsource_text, htarget, htarget_text, ?_⟩
    rintro input rfl rfl
    obtain ⟨ledger_entry, hentry⟩ := ledger_entry_new_of_movement hmovement
    obtain ⟨hmovement', hfrom', hto'⟩ := ledger_entry_new_spec hentry
    refine ⟨ledger_entry, hentry, ?_⟩
    intro id source log' event_id row hrow
    obtain ⟨hrow_movement, hrow_from, hrow_to, -, -⟩ := new_ledger_entry_row_columns hrow
    rw [hrow_movement, hrow_from, hrow_to, hfrom', hto', ← hsource_text, ← htarget_text]
    exact ⟨movement_type_eq hmovement', non_zero_address_as_str _, non_zero_address_as_str _⟩
  · intro id source' log' event_id row hrow
    obtain ⟨-, hrow_from, hrow_to, hrow_standard, amount, hrow_amount, hrow_column⟩ :=
      new_ledger_entry_row_columns hrow
    rw [hamount, hparsed] at hrow_amount
    cases hrow_amount
    rw [hcolumn] at hrow_column
    rw [hrow_from, hrow_to, hrow_column, hrow_standard, ← hsource_text, ← htarget_text,
      non_zero_address_as_str, non_zero_address_as_str]
    refine ⟨?_, Int.natCast_nonneg n, hfits, h.standard⟩
    -- a movement type rules out that both columns are null
    unfold MovementType.from_participants at hmovement
    unfold Address.non_zero
    cases hzero_from : Address.is_zero source <;> cases hzero_to : Address.is_zero target <;>
      rw [hzero_from, hzero_to] at hmovement <;> simp at hmovement ⊢

end Entry

end Decoded

/-- What the decoder accepts can be stored exactly where the addresses of the event
are hex digits and not both parties are the zero address. -/
theorem decoded_entry_storable_iff {keccak256 : String → String}
    {parse_bytes : List Char → Option Nat} {parseAmount : AmountParser}
    (htopics : EventTopics keccak256) (hbound : ReadsBounded parse_bytes)
    (hdecimal : ReadsDecimal parseAmount) (log : RpcLog) (standard : TokenStandard)
    (decoded : DecodedLog)
    (hdecode : decode_log keccak256 parse_bytes log standard = .ok (some decoded)) :
    ∀ entry ∈ decoded.entries,
      Storable parseAmount entry ↔ PartiesStorable keccak256 log := by
  intro entry hentry
  have hfrom := decoded_entry htopics hbound hdecode entry hentry
  exact ⟨hfrom.partiesStorable, hfrom.storable hdecimal⟩

/-! ## A transfer between zero addresses -/

/-- An ERC-20 transfer of 5 units from the zero address to itself. -/
def zero_to_zero : RpcLog := (erc20_transfer "0x1" "0xb1" "0xd1" zero_address zero_address).1

theorem parse_hex_digits_bounded : ReadsBounded parse_hex_digits := by
  intro digits n h
  unfold parse_hex_digits at h
  split at h
  · cases h
  · exact lt_of_lt_of_le (hex_value_lt h)
      (Nat.pow_le_pow_right (by decide) (length_le_byte_len digits))

theorem plain_digits_decimal : ReadsDecimal plain_digits := by
  intro n
  have hfold : ∀ (digits : List Char) (m : Nat),
      digits.foldl (fun (n : Int) c => 10 * n + (c.toNat - '0'.toNat : Nat)) (m : Int)
        = (Nat.ofDigitChars 10 digits m : Nat) := by
    intro digits
    induction digits with
    | nil => exact fun m => rfl
    | cons c rest ih => exact fun m => ih (10 * m + (c.toNat - '0'.toNat))
  have hvalue := decimal_value_toString n
  unfold decimal_value at hvalue
  unfold plain_digits
  split at hvalue
  · rename_i hdigits
    have hn : Nat.ofDigitChars 10 (toString n).toList 0 = n := Option.some.inj hvalue
    have hzero := hfold (toString n).toList 0
    rw [hn] at hzero
    simp only
    rw [if_pos hdigits]
    exact congrArg some (congrArg (BigDecimal.mk · 0) hzero)
  · cases hvalue

theorem decode_zero_to_zero : decode_log event_digest parse_hex_digits zero_to_zero .Erc20
    = .ok (some (erc20_transfer "0x1" "0xb1" "0xd1" zero_address zero_address).2) := by
  decide +kernel

theorem decoded_entry_storable_iff_zero_to_zero :
    ∃ decoded, decode_log event_digest parse_hex_digits zero_to_zero .Erc20 = .ok (some decoded) ∧
      decoded.entries ≠ [] ∧ ∀ entry ∈ decoded.entries,
        Storable plain_digits entry ↔ PartiesStorable event_digest zero_to_zero :=
  ⟨_, decode_zero_to_zero, by decide, decoded_entry_storable_iff event_digest_topics
    parse_hex_digits_bounded plain_digits_decimal zero_to_zero .Erc20 _ decode_zero_to_zero⟩

/-- The decoder accepts a transfer that the ledger cannot store. -/
theorem zero_to_zero_is_not_storable :
    ¬ ∀ (log : RpcLog) (standard : TokenStandard) (decoded : DecodedLog),
      decode_log event_digest parse_hex_digits log standard = .ok (some decoded) →
      ∀ entry ∈ decoded.entries, Storable plain_digits entry := by
  intro h
  obtain ⟨entry, hentry⟩ : ∃ entry,
      entry ∈ (erc20_transfer "0x1" "0xb1" "0xd1" zero_address zero_address).2.entries :=
    ⟨_, List.mem_singleton_self _⟩
  have hstorable := h zero_to_zero .Erc20 _ decode_zero_to_zero _ hentry
  have hfrom := decoded_entry event_digest_topics parse_hex_digits_bounded decode_zero_to_zero _
    hentry
  exact (hfrom.partiesStorable hstorable).moved ⟨by decide +kernel, by decide +kernel⟩

end EvmIndexer
