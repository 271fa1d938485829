/-
One log, one standard.

The detection, the shape check and the decoders look at a log separately, each at its topic,
at the number of its topics and at the length of its data. They agree because `decode_log`
asks the detection whichever standard it was given: an explicit standard has its `Transfer`
checked against the detected one, and `auto` takes the detected one. So what decodes under
a standard is detected as of it (`detect_of_decode`), and nothing decodes under two.
-/
import EvmIndexer.Decoder

set_option autoImplicit false

namespace EvmIndexer

section Standards

variable {keccak256 : String → String} {parse_bytes : List Char → Option Nat} {log : RpcLog}

/-- A `Transfer` is of some standard, or the detection fails. -/
theorem detect_transfer_ne_none {topic0 : String} {rest : List String}
    (htopics : log.topics = topic0 :: rest)
    (htransfer : to_ascii_lowercase topic0 = transfer keccak256) :
    detect_token_standard_from_log keccak256 log ≠ .ok none := by
  unfold detect_token_standard_from_log
  rw [htopics]
  simp only [htransfer]
  by_cases h1155 : transfer keccak256 = transfer_single keccak256 ∨
      transfer keccak256 = transfer_batch keccak256
  · rw [if_pos h1155]
    intro h
    cases h
  · rw [if_neg h1155, if_pos trivial]
    intro h
    rw [bind_eq_ok] at h
    obtain ⟨data_words, -, h⟩ := h
    split at h <;> cases h

/-- The shape check of a `Transfer` passes only where the detection finds the standard. -/
theorem detect_of_validate {topic0 : String} {rest : List String}
    (htopics : log.topics = topic0 :: rest)
    (htransfer : to_ascii_lowercase topic0 = transfer keccak256) {standard : TokenStandard}
    (h : validate_transfer_shape_matches_standard keccak256 log standard = .ok ()) :
    detect_token_standard_from_log keccak256 log = .ok (some standard) := by
  unfold validate_transfer_shape_matches_standard at h
  rw [bind_eq_ok] at h
  obtain ⟨found, hfound, h⟩ := h
  cases found with
  | none => exact absurd hfound (detect_transfer_ne_none htopics htransfer)
  | some other_standard =>
    simp only [bail_eq_ok, ne_eq, not_not] at h
    obtain ⟨rfl, -⟩ := h
    exact hfound

/-- What decodes under a standard is detected as of it. -/
theorem detect_of_decode {standard : TokenStandard} {decoded : DecodedLog}
    (h : decode_log_as keccak256 parse_bytes log standard = .ok (some decoded)) :
    detect_token_standard_from_log keccak256 log = .ok (some standard) := by
  unfold decode_log_as at h
  split at h
  · cases h
  · rename_i topic0 rest htopics
    simp only at h
    -- the three events, each under its own standards
    split at h
    · rename_i hevent
      rw [bind_eq_ok] at h
      obtain ⟨_, hvalidate, -⟩ := h
      exact detect_of_validate htopics hevent.1 hvalidate
    · split at h
      · rename_i hevent
        unfold detect_token_standard_from_log
        rw [htopics]
        simp only
        rw [if_pos (Or.inl hevent.1), hevent.2]
      · split at h
        · rename_i hevent
          unfold detect_token_standard_from_log
          rw [htopics]
          simp only
          rw [if_pos (Or.inr hevent.1), hevent.2]
        · cases h

/-- Under an explicit standard nothing is detected first. -/
theorem decode_log_explicit {standard : TokenStandard} (hexplicit : standard ≠ .Auto) :
    decode_log keccak256 parse_bytes log standard
      = decode_log_as keccak256 parse_bytes log standard := by
  unfold decode_log TokenStandard.is_auto
  rw [beq_eq_false_iff_ne.2 hexplicit]
  rfl

/-- Under `auto` a log decodes as under the standard that is detected. -/
theorem decode_log_auto {decoded : DecodedLog} :
    decode_log keccak256 parse_bytes log .Auto = .ok (some decoded) ↔
      ∃ standard, detect_token_standard_from_log keccak256 log = .ok (some standard) ∧
        decode_log_as keccak256 parse_bytes log standard = .ok (some decoded) := by
  unfold decode_log
  rw [if_pos (show TokenStandard.Auto.is_auto = true from rfl), bind_eq_ok]
  constructor
  · rintro ⟨found, hfound, h⟩
    cases found with
    | none => cases h
    | some standard => exact ⟨standard, hfound, h⟩
  · rintro ⟨standard, hfound, h⟩
    exact ⟨some standard, hfound, h⟩

/-- `auto` is never what is detected. -/
theorem detect_ne_auto {standard : TokenStandard}
    (h : detect_token_standard_from_log keccak256 log = .ok (some standard)) :
    standard ≠ .Auto := by
  unfold detect_token_standard_from_log at h
  split at h
  · cases h
  · simp only at h
    split at h
    · cases h
      decide
    · split at h
      · rw [bind_eq_ok] at h
        obtain ⟨data_words, -, h⟩ := h
        split at h
        · cases h
          decide
        · cases h
          decide
        · cases h
      · cases h

end Standards

/-- Every log decodes alike under `auto` and under the one standard it decodes under: an
explicit standard that decodes it is the detected one, and no other decodes it. -/
theorem auto_decodes_alike (keccak256 : String → String) (parse_bytes : List Char → Option Nat)
    (log : RpcLog) :
    (∀ standard, standard ≠ .Auto → ∀ decoded,
      decode_log keccak256 parse_bytes log standard = .ok (some decoded) →
        decode_log keccak256 parse_bytes log .Auto = .ok (some decoded) ∧
        detect_token_standard_from_log keccak256 log = .ok (some standard)) ∧
    ∀ decoded, decode_log keccak256 parse_bytes log .Auto = .ok (some decoded) →
      ∃ standard, standard ≠ .Auto ∧
        decode_log keccak256 parse_bytes log standard = .ok (some decoded) ∧
        ∀ other, other ≠ .Auto →
          (∃ d, decode_log keccak256 parse_bytes log other = .ok (some d)) → other = standard := by
  constructor
  · intro standard hexplicit decoded h
    rw [decode_log_explicit hexplicit] at h
    have hdetect := detect_of_decode h
    exact ⟨decode_log_auto.2 ⟨standard, hdetect, h⟩, hdetect⟩
  · intro decoded h
    obtain ⟨standard, hdetect, hdecode⟩ := decode_log_auto.1 h
    have hexplicit := detect_ne_auto hdetect
    refine ⟨standard, hexplicit, (decode_log_explicit hexplicit).trans hdecode, ?_⟩
    rintro other hother ⟨d, hd⟩
    rw [decode_log_explicit hother] at hd
    -- both standards are the one that is detected
    have hsame := (detect_of_decode hd).symm.trans hdetect
    exact Option.some.inj (Except.ok.inj hsame)

end EvmIndexer
