/-
The RPC URL as it is stored.

The URL of a provider ends in an API key, so `chains.rpc_url` gets the URL cut after the
provider's version, `/v2/` or `/v3/`. The cut tries `/v2/` over the whole URL before it tries
`/v3/`. A URL whose version is `/v2/` is cut there whatever follows (`redact_rpc_url_v2`). A URL
whose version is `/v3/` is cut there only where no `/v2/` follows; otherwise it is cut after
that one, and what stands before it is stored (`redact_rpc_url_v3`).
-/
import EvmIndexer.Hex
import EvmIndexer.Service
import EvmIndexer.Lib.Search

set_option autoImplicit false

namespace EvmIndexer

open Search

/-! ## The cut

A marker is searched in the whole URL, and the first marker of the list that occurs anywhere
decides. The URL is kept up to the end of the first occurrence of that marker. Without a marker
nothing of it is kept.
-/

/-- `str::find`: the byte index of the first occurrence. -/
def find_str (value marker : String) : Option Nat :=
  (find marker.toList value.toList).map byte_len

/-- The markers of `redact_rpc_url`, in the order they are tried. -/
def redacted_markers : List String := ["/v2/", "/v3/"]

/-- The loop of `redact_rpc_url`. -/
def redact_at (value : String) : List String → Result String
  | [] => .ok "<configured>"
  | marker :: rest =>
    match find_str value marker with
    | some index => do
      let kept ← slice value.toList 0 (index + byte_len marker.toList)
      .ok (String.ofList kept ++ "<redacted>")
    | none => redact_at value rest

/-- `redact_rpc_url`. An error stands for a panic of the slice. -/
def redact_rpc_url (value : String) : Result String := redact_at value redacted_markers

/-- The end of a text inside a longer one is a boundary of it. -/
theorem split_bytes_append (front rest : List Char) :
    split_bytes (byte_len front) (front ++ rest) = some (front, rest) := by
  unfold byte_len
  induction front with
  | nil => cases rest <;> rfl
  | cons c front ih =>
    have hc : 0 < c.utf8Size := Char.utf8Size_pos c
    rw [List.cons_append, split_bytes, List.map_cons, List.sum_cons, if_neg (by omega),
      if_pos (by omega), Nat.add_sub_cancel_left, ih]
    rfl

/-- A text sliced up to the end of its front. -/
theorem slice_front (front rest : List Char) :
    slice (front ++ rest) 0 (byte_len front) = .ok front := by
  have hstart := split_bytes_append [] (front ++ rest)
  unfold slice byte_slice
  rw [show (0 : Nat) = byte_len [] from rfl, List.nil_append] at *
  rw [hstart, Option.bind_some, show byte_len [] = 0 from rfl, Nat.sub_zero, split_bytes_append]
  rfl

/-- A marker that is found: the URL is kept up to the end of its first occurrence. -/
theorem redact_at_found {value marker : String} {markers : List String} {before : List Char}
    (hne : marker.toList ≠ []) (h : find marker.toList value.toList = some before) :
    redact_at value (marker :: markers)
      = .ok (String.ofList (before ++ marker.toList) ++ "<redacted>") := by
  obtain ⟨rest, hrest⟩ := ((find_eq_some hne).1 h).1
  have hlen : byte_len before + byte_len marker.toList = byte_len (before ++ marker.toList) := by
    unfold byte_len
    rw [List.map_append, List.sum_append]
  have hfind : find_str value marker = some (byte_len before) := by
    unfold find_str
    rw [h]
    rfl
  unfold redact_at
  rw [hfind]
  simp only [hlen, ← hrest, slice_front]
  rfl

/-- A marker that is not found is passed over. -/
theorem redact_at_missing {value marker : String} {markers : List String}
    (h : find marker.toList value.toList = none) :
    redact_at value (marker :: markers) = redact_at value markers := by
  have hfind : find_str value marker = none := by
    unfold find_str
    rw [h]
    rfl
  rw [redact_at, hfind]

/-- The slice never panics. -/
theorem redact_rpc_url_ok (value : String) : ∃ redacted, redact_rpc_url value = .ok redacted := by
  have hall : ∀ markers : List String, (∀ marker ∈ markers, marker.toList ≠ []) →
      ∃ redacted, redact_at value markers = .ok redacted := by
    intro markers hne
    induction markers with
    | nil => exact ⟨_, rfl⟩
    | cons marker markers ih =>
      cases hfind : find marker.toList value.toList with
      | some before => exact ⟨_, redact_at_found (hne marker (List.mem_cons_self ..)) hfind⟩
      | none =>
        rw [redact_at_missing hfind]
        exact ih fun other hother => hne other (List.mem_cons_of_mem _ hother)
  exact hall redacted_markers (by decide)

/-! ## The version of a URL

A provider's URL is a front, the version and a key. The front and the version have no other
marker in them, the key may have any. The first occurrence of a marker may overlap the end of
the version by the slash, which is why the rest is read from that slash on.
-/

/-- The text ends with the marker, and no marker occurs in it before: it is a URL up to the
end of its version. -/
structure FirstMarker (marker p : String) : Prop where
  known : marker ∈ redacted_markers
  ends : marker.toList <:+ p.toList
  first : ∀ other ∈ redacted_markers, ¬ other.toList <:+: p.toList.dropLast

instance (marker p : String) : Decidable (FirstMarker marker p) :=
  decidable_of_iff
    (marker ∈ redacted_markers ∧ marker.toList <:+ p.toList ∧
      ∀ other ∈ redacted_markers, ¬ other.toList <:+: p.toList.dropLast)
    ⟨fun h => ⟨h.1, h.2.1, h.2.2⟩, fun h => ⟨h.known, h.ends, h.first⟩⟩

section Version

variable {p : String}

/-- Its marker is found at its end, whatever follows. -/
theorem FirstMarker.find_eq {marker : String} (h : FirstMarker marker p) (k : String) :
    ∃ before, before ++ marker.toList = p.toList ∧
      find marker.toList (p ++ k).toList = some before := by
  obtain ⟨before, hbefore⟩ := h.ends
  have hne : marker.toList ≠ [] := by
    have hall : ∀ m ∈ redacted_markers, m.toList ≠ [] := by decide
    exact hall marker h.known
  refine ⟨before, hbefore, (find_eq_some hne).2 ?_⟩
  rw [hbefore, String.toList_append]
  exact ⟨List.prefix_append _ _, h.ends, h.first marker h.known⟩

/-- A URL whose version is `/v2/` is cut there, whatever follows. -/
theorem redact_rpc_url_v2 (h : FirstMarker "/v2/" p) (k : String) :
    redact_rpc_url (p ++ k) = .ok (p ++ "<redacted>") := by
  obtain ⟨before, hbefore, hfind⟩ := h.find_eq k
  unfold redact_rpc_url redacted_markers
  rw [redact_at_found (by decide) hfind, hbefore, String.ofList_toList]

/-- Past a version `/v3/`, `/v2/` is searched from the slash that ends it. -/
theorem FirstMarker.find_v2 (h : FirstMarker "/v3/" p) (k : String) :
    find "/v2/".toList (p ++ k).toList
      = (find "/v2/".toList ('/' :: k.toList)).map fun before => p.toList.dropLast ++ before := by
  obtain ⟨front, hfront⟩ := h.ends
  have hdrop : p.toList.dropLast = front ++ ['/', 'v', '3'] := by
    rw [← hfront]
    exact List.dropLast_append_of_ne_nil (by decide)
  have htext : (p ++ k).toList = p.toList.dropLast ++ '/' :: k.toList := by
    rw [String.toList_append, hdrop, ← hfront]
    simp
  rw [htext]
  refine find_append fun part hpart hne hoccurs => ?_
  by_cases hlong : 4 ≤ part.length
  · -- it would end before the version does, but the version comes first
    have hinside : "/v2/".toList <+: part :=
      List.prefix_of_prefix_length_le hoccurs (List.prefix_append _ _) hlong
    exact h.first "/v2/" (by decide) (hinside.isInfix.trans hpart.isInfix)
  · -- it would begin with a part of `/v3`
    have hend : part <:+ ['/', 'v', '3'] := by
      rw [hdrop] at hpart
      refine List.suffix_of_suffix_length_le hpart (List.suffix_append _ _) ?_
      simp only [List.length_cons, List.length_nil]
      omega
    rw [← List.mem_tails] at hend
    simp only [List.tails, List.mem_cons, List.not_mem_nil, or_false] at hend
    rcases hend with rfl | rfl | rfl | rfl
    · revert hoccurs
      simp
    · revert hoccurs
      simp
    · revert hoccurs
      simp
    · exact hne rfl

/-- What is kept of a URL whose version is `/v3/`, by what stands before the first `/v2/` from
the slash that ends the version. -/
def kept_v3 (p : String) : Option (List Char) → List Char
  | some before => p.toList.dropLast ++ before ++ "/v2/".toList
  | none => p.toList

/-- A URL whose version is `/v3/` is cut after the first `/v2/` from the slash that ends its
version, where there is one, and else at its version. -/
theorem redact_rpc_url_v3 (h : FirstMarker "/v3/" p) (k : String) :
    redact_rpc_url (p ++ k) = .ok
      (String.ofList (kept_v3 p (find "/v2/".toList ('/' :: k.toList))) ++ "<redacted>") := by
  have hv2 := h.find_v2 k
  unfold redact_rpc_url redacted_markers
  cases hcut : find "/v2/".toList ('/' :: k.toList) with
  | some before =>
    rw [hcut] at hv2
    exact redact_at_found (by decide) hv2
  | none =>
    obtain ⟨before, hbefore, hfind⟩ := h.find_eq k
    rw [hcut] at hv2
    rw [redact_at_missing hv2, redact_at_found (by decide) hfind, hbefore]
    rfl

/-- What is kept tells what was found. -/
theorem kept_v3_inj {found found' : Option (List Char)}
    (h : kept_v3 p found = kept_v3 p found') : found = found' := by
  -- a `/v2/` that was found adds at least three characters
  have hlonger : ∀ before, kept_v3 p (some before) ≠ kept_v3 p none := by
    intro before heq
    have hlength := congrArg List.length heq
    simp only [kept_v3, List.length_append, List.length_dropLast] at hlength
    have hmarker : "/v2/".toList.length = 4 := by decide
    omega
  cases found with
  | none =>
    cases found' with
    | none => rfl
    | some before' => exact absurd h.symm (hlonger before')
  | some before =>
    cases found' with
    | none => exact absurd h (hlonger before)
    | some before' => rw [List.append_cancel_left (List.append_cancel_right h)]

end Version

/-! ## The stored URL

All commands that ensure a chain go through the same call, which is passed the URL redacted;
so the column has nothing but redacted URLs.
-/

/-- A row of `chains` with its column `rpc_url`. -/
structure StoredChain extends ChainRow where
  rpc_url : String
  deriving DecidableEq, Repr

/-- `ensure_chain` with the column `rpc_url`, which is overwritten on conflict. -/
def ensure_stored_chain (chains : List StoredChain) (chain_name : String) (chain_id : Int)
    (rpc_url : String) (finality_confirmations : Int) : Result (StoredChain × List StoredChain) :=
  let values : StoredChain := { name := chain_name, chain_id, rpc_url, finality_confirmations }
  if ∃ row ∈ chains, row.name = chain_name ∧ row.chain_id ≠ chain_id then
    .error "upsert chain: constraint violation"
  else if ∃ row ∈ chains, row.chain_id = chain_id then
    .ok (values, chains.map fun row => if row.chain_id = chain_id then values else row)
  else .ok (values, chains ++ [values])

/-- Without the column it is the `ensure_chain` of the other tables. -/
theorem ensure_stored_chain_rows {service : Service} {chains : List StoredChain}
    (hchains : service.chains = chains.map StoredChain.toChainRow) (chain_name : String)
    (chain_id : Int) (rpc_url : String) (finality_confirmations : Int) :
    ensure_chain service chain_name chain_id finality_confirmations
      = (ensure_stored_chain chains chain_name chain_id rpc_url finality_confirmations).map
          fun stored => (stored.1.toChainRow,
            { service with chains := stored.2.map StoredChain.toChainRow }) := by
  -- replacing a row commutes with leaving the column out
  have hmap : ∀ values : StoredChain,
      (chains.map fun row => if row.chain_id = chain_id then values else row).map
          StoredChain.toChainRow
        = (chains.map StoredChain.toChainRow).map fun row =>
            if row.chain_id = chain_id then values.toChainRow else row := by
    intro values
    rw [List.map_map, List.map_map]
    refine List.map_congr_left fun row _ => ?_
    simp only [Function.comp_apply]
    split <;> rfl
  unfold ensure_chain ensure_stored_chain
  simp only [hchains, List.mem_map, exists_exists_and_eq_and]
  split
  · rfl
  · split
    · rw [Except.map, hmap]
    · rw [Except.map, List.map_append]
      rfl

/-- The chain as the commands store it: `ensure_chain` is passed the URL redacted. -/
def store_chain (chains : List StoredChain) (chain_name : String) (chain_id : Int)
    (rpc_url : String) (finality_confirmations : Int) :
    Result (StoredChain × List StoredChain) := do
  let redacted ← redact_rpc_url rpc_url
  ensure_stored_chain chains chain_name chain_id redacted finality_confirmations

/-- The URL is stored as it is redacted. -/
theorem store_chain_url {chains : List StoredChain} {chain_name : String} {chain_id : Int}
    {rpc_url : String} {finality_confirmations : Int} {stored : StoredChain × List StoredChain}
    (h : store_chain chains chain_name chain_id rpc_url finality_confirmations = .ok stored) :
    stored.1 ∈ stored.2 ∧ redact_rpc_url rpc_url = .ok stored.1.rpc_url := by
  obtain ⟨redacted, hredacted⟩ := redact_rpc_url_ok rpc_url
  unfold store_chain ensure_stored_chain at h
  rw [hredacted, ok_bind] at h
  simp only at h
  split at h
  · cases h
  · split at h
    · rename_i hexists
      cases h
      obtain ⟨row, hrow, hchain⟩ := hexists
      exact ⟨List.mem_map.2 ⟨row, hrow, if_pos hchain⟩, hredacted⟩
    · cases h
      exact ⟨List.mem_append_right _ (List.mem_singleton_self _), hredacted⟩

/-! ## What the stored URL tells

A key is hidden if every other key in its place would leave the same column. For `/v2/` that
is always so. For `/v3/` it depends on whether the keys have a `/v2/`, and on what stands
before it.
-/

/-- Two rests of a URL that the cut does not tell apart: the version is `/v2/`, or the rests
read the same up to the end of the first `/v2/`, from the slash that ends the version, and
have it both or neither. -/
def SameCut (marker k₁ k₂ : String) : Prop :=
  marker = "/v2/" ∨ ∀ head, Reads "/v2/".toList ('/' :: k₁.toList) head
    ↔ Reads "/v2/".toList ('/' :: k₂.toList) head

/-- Two URLs with one version are redacted alike just when the cut does not tell their rests
apart. -/
theorem redact_eq_iff {marker p : String} (hp : FirstMarker marker p) (k₁ k₂ : String) :
    redact_rpc_url (p ++ k₁) = redact_rpc_url (p ++ k₂) ↔ SameCut marker k₁ k₂ := by
  have hmarker : marker = "/v2/" ∨ marker = "/v3/" := by
    simpa [redacted_markers] using hp.known
  rcases hmarker with rfl | rfl
  · rw [redact_rpc_url_v2 hp, redact_rpc_url_v2 hp]
    exact ⟨fun _ => Or.inl rfl, fun _ => rfl⟩
  · unfold SameCut
    rw [redact_rpc_url_v3 hp, redact_rpc_url_v3 hp, ← find_eq_find (by decide)]
    constructor
    · intro h
      right
      have htext := congrArg String.toList (Except.ok.inj h)
      simp only [String.toList_append, String.toList_ofList] at htext
      exact kept_v3_inj (List.append_cancel_right htext)
    · rintro (h | h)
      · exact absurd h (by decide)
      · rw [h]

/-- The URL up to its version decides the redacted URL, and with it the stored chain, just
where the cut does not tell the rests apart. -/
theorem redaction_hides_rest_iff {marker p : String} (hp : FirstMarker marker p)
    (k₁ k₂ : String) :
    (redact_rpc_url (p ++ k₁) = redact_rpc_url (p ++ k₂) ∧
      ∀ chains chain_name chain_id finality_confirmations,
        store_chain chains chain_name chain_id (p ++ k₁) finality_confirmations
          = store_chain chains chain_name chain_id (p ++ k₂) finality_confirmations)
      ↔ SameCut marker k₁ k₂ := by
  rw [← redact_eq_iff hp k₁ k₂]
  constructor
  · exact And.left
  · intro h
    refine ⟨h, fun chains chain_name chain_id finality_confirmations => ?_⟩
    unfold store_chain
    rw [h]

/-- Two rests that have no `/v2/`. -/
theorem redaction_hides_rest_plain :
    redact_rpc_url ("https://mainnet.infura.io/v3/" ++ "first")
        = redact_rpc_url ("https://mainnet.infura.io/v3/" ++ "other") ∧
      ∀ chains chain_name chain_id finality_confirmations,
        store_chain chains chain_name chain_id ("https://mainnet.infura.io/v3/" ++ "first")
            finality_confirmations
          = store_chain chains chain_name chain_id ("https://mainnet.infura.io/v3/" ++ "other")
            finality_confirmations := by
  have hversion : FirstMarker "/v3/" "https://mainnet.infura.io/v3/" := by decide
  refine (redaction_hides_rest_iff hversion "first" "other").2 (Or.inr ?_)
  rw [← find_eq_find (by decide)]
  decide

/-- A rest with a `/v2/` is stored up to there: the key that stands before it is in the table. -/
theorem redaction_reveals_rest :
    FirstMarker "/v3/" "https://mainnet.infura.io/v3/" ∧
      redact_rpc_url ("https://mainnet.infura.io/v3/" ++ "secret/v2/x")
        = .ok "https://mainnet.infura.io/v3/secret/v2/<redacted>" ∧
      redact_rpc_url ("https://mainnet.infura.io/v3/" ++ "secret/v2/x")
        ≠ redact_rpc_url ("https://mainnet.infura.io/v3/" ++ "other") ∧
      (store_chain [] "mainnet" 1 ("https://mainnet.infura.io/v3/" ++ "secret/v2/x") 12).map
          (fun stored => stored.2.map StoredChain.rpc_url)
        = .ok ["https://mainnet.infura.io/v3/secret/v2/<redacted>"] := by
  refine ⟨by decide, by decide, by decide, by decide⟩

end EvmIndexer
