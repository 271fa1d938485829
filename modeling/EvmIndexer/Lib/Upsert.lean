/-
A library of upsert loops: `INSERT ... ON CONFLICT DO UPDATE`, one proposed row after
the other, as a function on the rows of a table.

A `Rule` says which rows conflict and what the conflicting row becomes. `store` is
one upsert and `storeAll` the loop. With no two proposed rows in conflict, each meets
the row that was there before the loop (`touched_mem_storeAll`), so the loop settles
what it stores (`settled_storeAll`): storing it once more leaves its row alone. Where
some of the settled rows were marked in between, storing them takes the marks off and
touches nothing else (`storeAll_marked`).
-/
import EvmIndexer.Lib.Table

set_option autoImplicit false

namespace Upsert

open Sql

/-- What an upsert does: the rows it takes for the same, and the row it leaves for a
proposed one and the stored one it conflicts with. -/
structure Rule (ρ : Type) where
  same : ρ → ρ → Bool
  merge : ρ → ρ → ρ
  same_refl : ∀ a, same a a = true
  same_symm : ∀ {a b}, same a b = true → same b a = true
  same_trans : ∀ {a b c}, same a b = true → same b c = true → same a c = true
  /-- The update leaves the conflict columns alone. -/
  same_merge : ∀ value old, same old (merge value old) = true

namespace Rule

variable {ρ : Type} {rule : Rule ρ}

/-- In conflict with `b` is in conflict with whatever `b` is in conflict with. -/
theorem same_congr {a b : ρ} (h : rule.same a b = true) (c : ρ) :
    rule.same a c = rule.same b c := by
  refine Bool.eq_iff_iff.2 ⟨fun hac => ?_, fun hbc => ?_⟩
  · exact rule.same_trans (rule.same_symm h) hac
  · exact rule.same_trans h hbc

theorem same_merge_right (c value old : ρ) :
    rule.same c (rule.merge value old) = rule.same c old := by
  refine Bool.eq_iff_iff.2 ⟨fun h => ?_, fun h => ?_⟩
  · exact rule.same_trans h (rule.same_symm (rule.same_merge value old))
  · exact rule.same_trans h (rule.same_merge value old)

end Rule

variable {ρ : Type} (rule : Rule ρ)

/-- No two of the rows conflict. -/
def Apart (rows : List ρ) : Prop := rows.Pairwise fun a b => ¬ rule.same a b = true

/-- The row an upsert leaves in the place of the conflict. -/
def touched (rows : List ρ) (value : ρ) : ρ :=
  match rows.find? (rule.same value) with
  | none => value
  | some old => rule.merge value old

variable {rule}

theorem same_touched (rows : List ρ) (value : ρ) : rule.same value (touched rule rows value) = true := by
  unfold touched
  cases hfind : rows.find? (rule.same value) with
  | none => exact rule.same_refl value
  | some old =>
    rw [rule.same_merge_right]
    exact List.find?_some hfind

/-- The row of a conflict is the only one. -/
theorem Apart.eq_of_same {rows : List ρ} (h : Apart rule rows) {a b : ρ} (ha : a ∈ rows)
    (hb : b ∈ rows) (hsame : rule.same a b = true) : a = b := by
  by_contra hne
  have : Std.Symm fun x y : ρ => ¬ rule.same x y = true := ⟨fun _ _ hxy hyx => hxy (rule.same_symm hyx)⟩
  exact h.forall ha hb hne hsame

theorem Apart.find? {rows : List ρ} (h : Apart rule rows) {value old : ρ} (hold : old ∈ rows)
    (hsame : rule.same value old = true) : rows.find? (rule.same value) = some old := by
  obtain ⟨found, hfound⟩ : ∃ found, rows.find? (rule.same value) = some found :=
    Option.isSome_iff_exists.1 (List.find?_isSome.2 ⟨old, hold, hsame⟩)
  have hfound_same : rule.same value found = true := List.find?_some hfound
  rw [hfound, h.eq_of_same (List.mem_of_find?_eq_some hfound) hold
    (rule.same_trans (rule.same_symm hfound_same) hsame)]

variable [DecidableEq ρ]

variable (rule) in
/-- One upsert. -/
def store (rows : List ρ) (value : ρ) : List ρ :=
  match rows.find? (rule.same value) with
  | none => rows ++ [value]
  | some old => replaceRow old (rule.merge value old) rows

variable (rule) in
/-- The upserts of a list of proposed rows, in order. -/
def storeAll (rows values : List ρ) : List ρ := values.foldl (store rule) rows

/-! ## One upsert

An upsert changes at most one row, that of the conflict, and appends one otherwise. Rows that
conflict with another proposed row are not concerned, which is what the loop rests on.
-/

/-- A row is there from before, or in conflict with the proposed one. -/
theorem mem_store {rows : List ρ} {value r : ρ} (h : r ∈ store rule rows value) :
    r ∈ rows ∨ rule.same value r = true := by
  unfold store at h
  cases hfind : rows.find? (rule.same value) with
  | none =>
    rw [hfind, List.mem_append, List.mem_singleton] at h
    rcases h with h | rfl
    · exact Or.inl h
    · exact Or.inr (rule.same_refl r)
  | some old =>
    have hold : rule.same value old = true := List.find?_some hfind
    rw [hfind, mem_replaceRow (List.mem_of_find?_eq_some hfind)] at h
    rcases h with rfl | ⟨h, -⟩
    · exact Or.inr ((rule.same_merge_right ..).trans hold)
    · exact Or.inl h

theorem touched_mem_store (rows : List ρ) (value : ρ) :
    touched rule rows value ∈ store rule rows value := by
  unfold touched store
  cases hfind : rows.find? (rule.same value) with
  | none => exact List.mem_append_right _ (List.mem_singleton_self _)
  | some old => exact (mem_replaceRow (List.mem_of_find?_eq_some hfind)).2 (Or.inl rfl)

theorem mem_store_of_other {rows : List ρ} {value r : ρ} (hr : r ∈ rows)
    (hother : ¬ rule.same value r = true) : r ∈ store rule rows value := by
  unfold store
  cases hfind : rows.find? (rule.same value) with
  | none => exact List.mem_append_left _ hr
  | some old =>
    refine (mem_replaceRow (List.mem_of_find?_eq_some hfind)).2 (Or.inr ⟨hr, ?_⟩)
    rintro rfl
    exact hother (List.find?_some hfind)

/-- An upsert does not change what is found in conflict with another row. -/
theorem find?_store_of_other {rows : List ρ} {value w : ρ} (hother : ¬ rule.same value w = true) :
    (store rule rows value).find? (rule.same w) = rows.find? (rule.same w) := by
  have hnot : ∀ r, rule.same value r = true → ¬ rule.same w r = true :=
    fun r hr hw => hother (rule.same_trans hr (rule.same_symm hw))
  unfold store
  cases hfind : rows.find? (rule.same value) with
  | none =>
    have hvalue := hnot value (rule.same_refl value)
    simp [List.find?_append, hvalue]
  | some old =>
    have hold : rule.same value old = true := List.find?_some hfind
    exact find?_replaceRow (hnot old hold)
      (hnot _ ((rule.same_merge_right value value old).trans hold)) rows

/-- A settled row is left alone. -/
theorem store_eq_self {rows : List ρ} (h : Apart rule rows) {value old : ρ} (hold : old ∈ rows)
    (hsame : rule.same value old = true) (hsettled : rule.merge value old = old) :
    store rule rows value = rows := by
  unfold store
  rw [h.find? hold hsame]
  simp only [hsettled]
  exact replaceRow_self old rows

/-! ## The loop

Without conflicts among the proposed rows each upsert finds what was there before the loop,
so the loop can be described row by row. Merging twice is merging once for a rule that takes
the new value, and then the rows a loop has stored are settled.
-/

/-- A row is there from before, or in conflict with a proposed one. -/
theorem mem_storeAll {rows values : List ρ} {r : ρ} (h : r ∈ storeAll rule rows values) :
    r ∈ rows ∨ ∃ value ∈ values, rule.same value r = true := by
  unfold storeAll at h
  induction values generalizing rows with
  | nil => exact Or.inl h
  | cons value rest ih =>
    rcases ih h with hr | ⟨w, hw, hsame⟩
    · rcases mem_store hr with hr | hsame
      · exact Or.inl hr
      · exact Or.inr ⟨value, List.mem_cons_self .., hsame⟩
    · exact Or.inr ⟨w, List.mem_cons_of_mem _ hw, hsame⟩

/-- What the stored and the proposed rows have, and every update keeps, the rows have
after the loop. -/
theorem forall_mem_storeAll {P : ρ → Prop} {rows values : List ρ} (hrows : ∀ r ∈ rows, P r)
    (hvalues : ∀ value ∈ values, P value)
    (hmerge : ∀ value ∈ values, ∀ old, rule.same value old = true → P old → P (rule.merge value old)) :
    ∀ r ∈ storeAll rule rows values, P r := by
  unfold storeAll
  induction values generalizing rows with
  | nil => exact hrows
  | cons value rest ih =>
    -- one value stored keeps it, which carries the induction over the values
    refine ih ?_ (fun w hw => hvalues w (List.mem_cons_of_mem _ hw))
      fun w hw => hmerge w (List.mem_cons_of_mem _ hw)
    intro r hr
    have hvalue : value ∈ value :: rest := List.mem_cons_self ..
    unfold store at hr
    cases hfind : rows.find? (rule.same value) with
    | none =>
      rw [hfind, List.mem_append, List.mem_singleton] at hr
      rcases hr with hr | rfl
      · exact hrows r hr
      · exact hvalues r hvalue
    | some old =>
      have hold : old ∈ rows := List.mem_of_find?_eq_some hfind
      rw [hfind, mem_replaceRow hold] at hr
      rcases hr with rfl | ⟨hr, -⟩
      · exact hmerge value hvalue old (List.find?_some hfind) (hrows old hold)
      · exact hrows r hr

theorem mem_storeAll_of_other {rows values : List ρ} {r : ρ} (hr : r ∈ rows)
    (hother : ∀ value ∈ values, ¬ rule.same value r = true) : r ∈ storeAll rule rows values := by
  unfold storeAll
  induction values generalizing rows with
  | nil => exact hr
  | cons value rest ih =>
    exact ih (mem_store_of_other hr (hother value (List.mem_cons_self ..)))
      fun w hw => hother w (List.mem_cons_of_mem _ hw)

/-- A row that is there is updated at most. -/
theorem exists_same_store {rows : List ρ} {r : ρ} (hr : r ∈ rows) (value : ρ) :
    ∃ r' ∈ store rule rows value, rule.same r r' = true := by
  by_cases hsame : rule.same value r = true
  · exact ⟨touched rule rows value, touched_mem_store rows value,
      rule.same_trans (rule.same_symm hsame) (same_touched rows value)⟩
  · exact ⟨r, mem_store_of_other hr hsame, rule.same_refl r⟩

variable (rule) in
/-- After the loop there is a row for each that was there, and for each that was proposed. -/
theorem exists_same_storeAll (rows values : List ρ) {r : ρ} (hr : r ∈ rows ∨ r ∈ values) :
    ∃ r' ∈ storeAll rule rows values, rule.same r r' = true := by
  unfold storeAll
  induction values generalizing rows r with
  | nil => exact ⟨r, hr.resolve_right List.not_mem_nil, rule.same_refl r⟩
  | cons value rest ih =>
    have hfirst : r ∈ rest ∨ ∃ mid ∈ store rule rows value, rule.same r mid = true := by
      rcases hr with hr | hr
      · exact Or.inr (exists_same_store hr value)
      · rcases List.mem_cons.1 hr with rfl | hr
        · exact Or.inr ⟨touched rule rows r, touched_mem_store rows r, same_touched rows r⟩
        · exact Or.inl hr
    rcases hfirst with hrest | ⟨mid, hmid, hsame⟩
    · exact ih _ (Or.inr hrest)
    · obtain ⟨r', hr', hsame'⟩ := ih _ (Or.inl hmid)
      exact ⟨r', hr', rule.same_trans hsame hsame'⟩

/-- With no two proposed rows in conflict, each meets what was there before. -/
theorem touched_mem_storeAll {rows values : List ρ} (hvalues : Apart rule values) {value : ρ}
    (hvalue : value ∈ values) : touched rule rows value ∈ storeAll rule rows values := by
  induction values generalizing rows with
  | nil => cases hvalue
  | cons first rest ih =>
    obtain ⟨hfirst, hrest⟩ := List.pairwise_cons.1 hvalues
    rcases List.mem_cons.1 hvalue with rfl | hvalue
    · have hmem : touched rule rows value ∈ store rule rows value := touched_mem_store rows value
      show touched rule rows value ∈ storeAll rule (store rule rows value) rest
      refine mem_storeAll_of_other hmem fun w hw hsame => ?_
      exact hfirst w hw (rule.same_trans (same_touched rows value) (rule.same_symm hsame))
    · have hmem : touched rule (store rule rows first) value
          ∈ storeAll rule (store rule rows first) rest := ih hrest hvalue
      unfold touched at hmem ⊢
      rw [find?_store_of_other (hfirst value hvalue)] at hmem
      exact hmem

/-- A row that storing `value` leaves alone. -/
def Settled (rule : Rule ρ) (rows : List ρ) (value : ρ) : Prop :=
  ∃ old ∈ rows, rule.same value old = true ∧ rule.merge value old = old

/-- A loop settles what it stores, where merging twice is merging once. -/
theorem settled_storeAll (rows : List ρ) {values : List ρ} (hvalues : Apart rule values)
    (hself : ∀ value ∈ values, rule.merge value value = value)
    (hidem : ∀ value ∈ values, ∀ old, rule.merge value (rule.merge value old) = rule.merge value old) :
    ∀ value ∈ values, Settled rule (storeAll rule rows values) value := by
  intro value hvalue
  refine ⟨touched rule rows value, touched_mem_storeAll hvalues hvalue, same_touched rows value, ?_⟩
  unfold touched
  cases rows.find? (rule.same value) with
  | none => exact hself value hvalue
  | some old => exact hidem value hvalue old

/-! ## Marked rows

Something else marks rows between two loops, an orphaning for instance. Storing a settled row
over a marked one takes the mark off, and is the identity on the others; so the second loop
leaves what the first left, if every marked row is proposed.
-/

/-- The rows selected by `p`, marked. -/
def markIf (mark : ρ → ρ) (p : ρ → Bool) (r : ρ) : ρ := if p r then mark r else r

/-- Where storing takes the mark off a settled row, storing settled rows after some
were marked takes the marks off these rows and leaves the rest as it is. -/
theorem storeAll_marked {mark : ρ → ρ} (hmark : ∀ r, rule.same r (mark r) = true)
    {rows values : List ρ} (h : Apart rule rows) (hvalues : Apart rule values)
    (hunmark : ∀ value old, rule.merge value old = old → rule.merge value (mark old) = old)
    (hsettled : ∀ value ∈ values, Settled rule rows value) (p : ρ → Bool) :
    storeAll rule (rows.map (markIf mark p)) values
      = rows.map (markIf mark fun r => p r && !values.any fun value => rule.same value r) := by
  have hsame_mark : ∀ (p : ρ → Bool) (r : ρ), rule.same r (markIf mark p r) = true := by
    intro p r
    unfold markIf
    split
    · exact hmark r
    · exact rule.same_refl r
  unfold storeAll
  induction values generalizing p with
  | nil => simp
  | cons value rest ih =>
    obtain ⟨old, hold, hsame, hmerge⟩ := hsettled value (List.mem_cons_self ..)
    have hapart : Apart rule (rows.map (markIf mark p)) := by
      refine List.pairwise_map.2 (h.imp ?_)
      intro a b hab hmarked
      exact hab (rule.same_trans (hsame_mark p a)
        (rule.same_trans hmarked (rule.same_symm (hsame_mark p b))))
    have hfind := hapart.find? (List.mem_map_of_mem hold)
      (rule.same_trans hsame (hsame_mark p old))
    have hstored : rule.merge value (markIf mark p old) = old := by
      unfold markIf
      split
      · exact hunmark value old hmerge
      · exact hmerge
    -- one upsert takes the mark off the row it meets
    have hstep : store rule (rows.map (markIf mark p)) value
        = rows.map (markIf mark fun r => p r && !rule.same value r) := by
      unfold store
      rw [hfind]
      simp only [hstored]
      unfold replaceRow
      rw [List.map_map]
      refine List.map_congr_left fun r hr => ?_
      simp only [Function.comp_apply]
      by_cases hrow : rule.same value r = true
      · have heq : r = old := h.eq_of_same hr hold (rule.same_trans (rule.same_symm hrow) hsame)
        rw [heq, if_pos rfl]
        simp [markIf, hsame]
      · rw [if_neg]
        · simp [markIf, hrow]
        · intro heq
          refine hrow (rule.same_trans hsame ?_)
          rw [← rule.same_congr (rule.same_symm (hsame_mark p old)), ← heq]
          exact rule.same_symm (hsame_mark p r)
    rw [List.foldl_cons, hstep, ih (List.pairwise_cons.1 hvalues).2
      (fun w hw => hsettled w (List.mem_cons_of_mem _ hw))]
    refine List.map_congr_left fun r _ => ?_
    simp [markIf, Bool.and_assoc]

/-- Storing takes all marks off where every marked row conflicts with a proposed one. -/
theorem storeAll_unmarks {mark : ρ → ρ} (hmark : ∀ r, rule.same r (mark r) = true)
    {rows values : List ρ} (h : Apart rule rows) (hvalues : Apart rule values)
    (hunmark : ∀ value old, rule.merge value old = old → rule.merge value (mark old) = old)
    (hsettled : ∀ value ∈ values, Settled rule rows value) {p : ρ → Bool}
    (hp : ∀ r ∈ rows, p r = true → ∃ value ∈ values, rule.same value r = true) :
    storeAll rule (rows.map (markIf mark p)) values = rows := by
  rw [storeAll_marked hmark h hvalues hunmark hsettled]
  conv_rhs => rw [← List.map_id rows]
  refine List.map_congr_left fun r hr => ?_
  unfold markIf
  rw [if_neg, id]
  intro hmarked
  rw [Bool.and_eq_true, Bool.not_eq_true', List.any_eq_false] at hmarked
  obtain ⟨value, hvalue, hsame⟩ := hp r hr hmarked.1
  exact hmarked.2 value hvalue hsame

end Upsert
