/-
A library of keyset pagination.

A page is the first `limit` rows past a cursor in key order, and its cursor is
the key of its last row, handed out only when one more row was there. A walk asks
for page after page, each time of whatever rows the table then holds.

What a walk returns is strictly ascending as long as no table it met had two rows
with one key (`Walk.ascending`), and it holds every row that was in all of the
tables (`Walk.mem_of_stays`). Both are inductions over the walk, and both rest on
one fact about one page: the rows up to its cursor are on it, the rows past its
cursor are not (`page_split`).
-/
import Mathlib.Data.List.Sort

set_option autoImplicit false

namespace Keyset

variable {ρ κ : Type} [LinearOrder κ] (key : ρ → κ)

/-! ## One page

A page asks for one row more than it shows. If that row is there, the key of the last row
shown is the cursor. The page cuts the rows in two at that key, and this needs the keys to be
distinct: of two rows with the key of the cursor, the second would be behind the cut and past
no cursor.
-/

/-- The rows past a cursor, in key order. -/
def past (cursor : Option κ) (rows : List ρ) : List ρ :=
  (rows.filter fun r => cursor.all fun c => decide (c < key r)).insertionSort
    fun a b => key a ≤ key b

/-- The rows of a page and the cursor to its next: one row more than the page
holds is fetched to see whether there is a next. -/
def page (limit : ℕ) (cursor : Option κ) (rows : List ρ) : List ρ × Option κ :=
  let fetched := (past key cursor rows).take (limit + 1)
  if limit < fetched.length then (fetched.take limit, (fetched.take limit).getLast?.map key)
  else (fetched, none)

variable {key}

theorem mem_past {cursor : Option κ} {rows : List ρ} {r : ρ} :
    r ∈ past key cursor rows ↔ r ∈ rows ∧ ∀ c ∈ cursor, c < key r := by
  unfold past
  rw [List.mem_insertionSort, List.mem_filter]
  cases cursor <;> simp

/-- Where keys are distinct, the rows past a cursor ascend strictly. -/
theorem past_ascending {cursor : Option κ} {rows : List ρ} (h : (rows.map key).Nodup) :
    (past key cursor rows).Pairwise fun a b => key a < key b := by
  have htotal : Std.Total fun a b : ρ => key a ≤ key b := ⟨fun a b => le_total (key a) (key b)⟩
  have htrans : IsTrans ρ fun a b => key a ≤ key b := ⟨fun _ _ _ => le_trans⟩
  have hsorted : (past key cursor rows).Pairwise fun a b => key a ≤ key b :=
    List.pairwise_insertionSort (fun a b => key a ≤ key b) _
  have hfiltered : ((rows.filter fun r => cursor.all fun c => decide (c < key r)).map key).Nodup :=
    h.sublist (List.filter_sublist.map key)
  have hnodup : ((past key cursor rows).map key).Nodup :=
    ((List.perm_insertionSort _ _).map key).nodup_iff.2 hfiltered
  have hne : (past key cursor rows).Pairwise fun a b => key a ≠ key b :=
    List.pairwise_map.1 hnodup
  exact hsorted.imp₂ (fun _ _ hle hkey => lt_of_le_of_ne hle hkey) hne

/-- The cursor of a page is the key of one of its rows, the last. -/
theorem exists_of_cursor {limit : ℕ} {cursor : Option κ} {rows : List ρ} {c : κ}
    (hc : (page key limit cursor rows).2 = some c) :
    ∃ r ∈ (page key limit cursor rows).1, key r = c := by
  unfold page at hc ⊢
  simp only at hc ⊢
  split at hc
  · rename_i hlong
    rw [if_pos hlong]
    obtain ⟨last, hlast, hkey⟩ := Option.map_eq_some_iff.1 hc
    exact ⟨last, List.mem_of_getLast? hlast, hkey⟩
  · cases hc

/-- A page with a cursor is cut at that cursor: before it come the rows of the
page, after it the rows that are left. -/
theorem page_split {limit : ℕ} {cursor : Option κ} {rows : List ρ} (h : (rows.map key).Nodup)
    {c : κ} (hc : (page key limit cursor rows).2 = some c) :
    ∃ rest, past key cursor rows = (page key limit cursor rows).1 ++ rest ∧
      (∀ r ∈ (page key limit cursor rows).1, key r ≤ c) ∧ ∀ r ∈ rest, c < key r := by
  unfold page at hc ⊢
  simp only at hc ⊢
  split at hc
  · -- there are more rows than the page holds: it ends in the last one taken
    rename_i hlong
    rw [if_pos hlong]
    have htake : ((past key cursor rows).take (limit + 1)).take limit
        = (past key cursor rows).take limit := by
      rw [List.take_take, Nat.min_eq_left (Nat.le_succ limit)]
    rw [htake] at hc ⊢
    obtain ⟨last, hlast, rfl⟩ := Option.map_eq_some_iff.1 hc
    obtain ⟨before, hbefore⟩ := List.getLast?_eq_some_iff.1 hlast
    have hsplit : past key cursor rows
        = (before ++ [last]) ++ (past key cursor rows).drop limit := by
      rw [← hbefore, List.take_append_drop]
    have hascending : (past key cursor rows).Pairwise fun a b => key a < key b :=
      past_ascending h
    rw [hsplit, List.append_assoc, List.pairwise_append] at hascending
    -- the keys ascend through the cut
    obtain ⟨-, htail, hcross⟩ := hascending
    refine ⟨(past key cursor rows).drop limit, (List.take_append_drop limit _).symm, ?_, ?_⟩
    · intro r hr
      rw [hbefore, List.mem_append, List.mem_singleton] at hr
      rcases hr with hr | rfl
      · exact le_of_lt (hcross r hr last (by simp))
      · exact le_rfl
    · intro r hr
      exact (List.pairwise_cons.1 htail).1 r hr
  · cases hc

/-- A page without a cursor holds everything past its own. -/
theorem page_last {limit : ℕ} {cursor : Option κ} {rows : List ρ} (hlimit : 0 < limit)
    (hc : (page key limit cursor rows).2 = none) :
    (page key limit cursor rows).1 = past key cursor rows := by
  unfold page at hc ⊢
  simp only at hc ⊢
  split at hc
  · rename_i hlong
    rw [Option.map_eq_none_iff, List.getLast?_eq_none_iff, List.take_eq_nil_iff] at hc
    rcases hc with hc | hc
    · omega
    · rw [hc] at hlong
      exact absurd hlong (Nat.not_lt_zero _)
  · rename_i hshort
    rw [if_neg hshort, List.take_of_length_le]
    rw [List.length_take] at hshort
    omega

theorem page_subset {limit : ℕ} {cursor : Option κ} {rows : List ρ} {r : ρ}
    (hr : r ∈ (page key limit cursor rows).1) : r ∈ past key cursor rows := by
  unfold page at hr
  simp only at hr
  split at hr
  · exact List.mem_of_mem_take (List.mem_of_mem_take hr)
  · exact List.mem_of_mem_take hr

theorem page_ascending {limit : ℕ} {cursor : Option κ} {rows : List ρ}
    (h : (rows.map key).Nodup) :
    (page key limit cursor rows).1.Pairwise fun a b => key a < key b := by
  unfold page
  simp only
  split
  · exact ((past_ascending h).sublist (List.take_sublist _ _)).sublist (List.take_sublist _ _)
  · exact (past_ascending h).sublist (List.take_sublist _ _)

/-- Two lists that ascend strictly and have the same elements are one list. -/
theorem eq_of_ascending {l m : List ρ} (hl : l.Pairwise fun a b => key a < key b)
    (hm : m.Pairwise fun a b => key a < key b) (h : ∀ r, r ∈ l ↔ r ∈ m) : l = m := by
  have hnodup : ∀ {l : List ρ}, l.Pairwise (fun a b => key a < key b) → l.Nodup :=
    fun hl => hl.imp fun {a b} hab (e : a = b) => lt_irrefl (key b) (e ▸ hab)
  have hperm : l.Perm m := (List.perm_ext_iff_of_nodup (hnodup hl) (hnodup hm)).2 h
  refine List.Perm.eq_of_pairwise ?_ hl hm hperm
  intro a b _ _ hab hba
  exact absurd (hab.trans hba) (lt_irrefl _)

/-- What a page leaves is what lies past its cursor. -/
theorem page_append_past {limit : ℕ} {cursor : Option κ} {rows : List ρ}
    (h : (rows.map key).Nodup) {c : κ} (hc : (page key limit cursor rows).2 = some c) :
    past key cursor rows = (page key limit cursor rows).1 ++ past key (some c) rows ∧
      (page key limit cursor rows).1.length = limit := by
  refine ⟨?_, ?_⟩
  · obtain ⟨rest, hsplit, hpage, hrest⟩ := page_split h hc
    have hascending : (past key cursor rows).Pairwise fun a b => key a < key b := past_ascending h
    rw [hsplit, List.pairwise_append] at hascending
    rw [hsplit]
    congr 1
    refine eq_of_ascending hascending.2.1 (past_ascending h) fun r => ?_
    have hmem : r ∈ rows ∧ (∀ c₀ ∈ cursor, c₀ < key r) ↔ r ∈ (page key limit cursor rows).1 ++ rest := by
      rw [← hsplit, mem_past]
    rw [mem_past]
    constructor
    · intro hr
      exact ⟨(hmem.2 (List.mem_append_right _ hr)).1, fun c' hc' => Option.some.inj hc' ▸ hrest r hr⟩
    · rintro ⟨hr, hlater⟩
      obtain ⟨last, hlast, hkey⟩ := exists_of_cursor hc
      have hpast : ∀ c₀ ∈ cursor, c₀ < key r := by
        intro c₀ hc₀
        have hfirst := (mem_past.1 (page_subset hlast)).2 c₀ hc₀
        exact (hkey ▸ hfirst).trans (hlater c rfl)
      rcases List.mem_append.1 (hmem.1 ⟨hr, hpast⟩) with hin | hin
      · exact absurd (hlater c rfl) (not_lt.2 (hpage r hin))
      · exact hin
  · unfold page at hc ⊢
    simp only at hc ⊢
    split at hc
    · rename_i hlong
      rw [if_pos hlong, List.length_take]
      omega
    · cases hc

/-! ## A walk over the pages

The tables of a walk need not be related. A row that comes and goes is shown or not, and what
is proved is about the rows that are in every table the walk meets.
-/

variable (key) in
/-- Pages asked for one after the other from a cursor until one has no cursor,
each of the rows the table then holds. -/
inductive Walk (limit : ℕ) : Option κ → List (List ρ) → List (List ρ) → Prop
  | last {cursor : Option κ} {rows : List ρ}
      (hnone : (page key limit cursor rows).2 = none) :
      Walk limit cursor [rows] [(page key limit cursor rows).1]
  | next {cursor : Option κ} {rows : List ρ} {tables pages : List (List ρ)} {c : κ}
      (hsome : (page key limit cursor rows).2 = some c) (rest : Walk limit (some c) tables pages) :
      Walk limit cursor (rows :: tables) ((page key limit cursor rows).1 :: pages)

/-- What a walk returns lies past the cursor it starts from. -/
theorem Walk.past_cursor {limit : ℕ} {cursor : Option κ} {tables pages : List (List ρ)}
    (h : Walk key limit cursor tables pages) (hkeys : ∀ rows ∈ tables, (rows.map key).Nodup)
    {r : ρ} (hr : r ∈ pages.flatten) : ∀ c ∈ cursor, c < key r := by
  induction h with
  | last hnone =>
    rw [List.flatten_cons, List.flatten_nil, List.append_nil] at hr
    exact (mem_past.1 (page_subset hr)).2
  | @next cursor rows tables pages c hsome rest ih =>
    rw [List.flatten_cons, List.mem_append] at hr
    rcases hr with hr | hr
    · exact (mem_past.1 (page_subset hr)).2
    · have hlater : c < key r :=
        ih (fun t ht => hkeys t (List.mem_cons_of_mem _ ht)) hr c rfl
      -- the page before ends at `c`, so `c` itself lies past the first cursor
      obtain ⟨last, hlast, hc⟩ := exists_of_cursor hsome
      intro c₀ hc₀
      have hfirst : c₀ < key last := (mem_past.1 (page_subset hlast)).2 c₀ hc₀
      rw [hc] at hfirst
      exact hfirst.trans hlater

/-- A walk over tables with distinct keys returns rows in strictly ascending
order: none twice. -/
theorem Walk.ascending {limit : ℕ} {cursor : Option κ} {tables pages : List (List ρ)}
    (h : Walk key limit cursor tables pages) (hkeys : ∀ rows ∈ tables, (rows.map key).Nodup) :
    pages.flatten.Pairwise fun a b => key a < key b := by
  induction h with
  | last hnone =>
    rw [List.flatten_cons, List.flatten_nil, List.append_nil]
    exact page_ascending (hkeys _ (List.mem_cons_self ..))
  | @next cursor rows tables pages c hsome rest ih =>
    have hrows := hkeys rows (List.mem_cons_self ..)
    have htables : ∀ t ∈ tables, (t.map key).Nodup := fun t ht => hkeys t (List.mem_cons_of_mem _ ht)
    obtain ⟨-, -, hle, -⟩ := page_split hrows hsome
    rw [List.flatten_cons, List.pairwise_append]
    refine ⟨page_ascending hrows, ih htables, ?_⟩
    intro a ha b hb
    exact lt_of_le_of_lt (hle a ha) (rest.past_cursor htables hb c rfl)

/-- A row past the cursor that is in every table of a walk is returned by it. -/
theorem Walk.mem_of_stays {limit : ℕ} {cursor : Option κ} {tables pages : List (List ρ)}
    (h : Walk key limit cursor tables pages) (hlimit : 0 < limit)
    (hkeys : ∀ rows ∈ tables, (rows.map key).Nodup) {r : ρ} (hr : ∀ rows ∈ tables, r ∈ rows)
    (hpast : ∀ c ∈ cursor, c < key r) : r ∈ pages.flatten := by
  induction h with
  | last hnone =>
    rw [List.flatten_cons, List.flatten_nil, List.append_nil, page_last hlimit hnone]
    exact mem_past.2 ⟨hr _ (List.mem_cons_self ..), hpast⟩
  | @next cursor rows tables pages c hsome rest ih =>
    obtain ⟨left, hsplit, -, hleft⟩ := page_split (hkeys rows (List.mem_cons_self ..)) hsome
    have hmem : r ∈ past key cursor rows := mem_past.2 ⟨hr rows (List.mem_cons_self ..), hpast⟩
    rw [List.flatten_cons, List.mem_append]
    rw [hsplit, List.mem_append] at hmem
    -- on this page, or past its cursor and then on a later one
    rcases hmem with hmem | hmem
    · exact Or.inl hmem
    · refine Or.inr (ih (fun t ht => hkeys t (List.mem_cons_of_mem _ ht))
        (fun t ht => hr t (List.mem_cons_of_mem _ ht)) ?_)
      intro c' hc'
      rw [← Option.some.inj hc']
      exact hleft r hmem

/-! ## A walk over one table

If the table does not change, the walk returns exactly what lies past its cursor. That a walk
exists at all, and how many pages it has, follows by induction on the number of rows that are
left.
-/

/-- A walk over a table that stays as it is returns what lies past its cursor, in order. -/
theorem Walk.flatten_eq {limit : ℕ} {cursor : Option κ} {tables pages : List (List ρ)}
    (h : Walk key limit cursor tables pages) (hlimit : 0 < limit) {rows : List ρ}
    (hkeys : (rows.map key).Nodup) (hfixed : ∀ table ∈ tables, table = rows) :
    pages.flatten = past key cursor rows := by
  induction h with
  | @last cursor table hnone =>
    rw [hfixed table (List.mem_cons_self ..)] at hnone ⊢
    rw [List.flatten_cons, List.flatten_nil, List.append_nil, page_last hlimit hnone]
  | @next cursor table tables pages c hsome _ ih =>
    rw [hfixed table (List.mem_cons_self ..)] at hsome ⊢
    rw [List.flatten_cons, ih fun t ht => hfixed t (List.mem_cons_of_mem _ ht),
      (page_append_past hkeys hsome).1]

/-- There is such a walk: every page but the last leaves fewer rows. -/
theorem exists_walk {limit : ℕ} (hlimit : 0 < limit) {rows : List ρ} (hkeys : (rows.map key).Nodup)
    (cursor : Option κ) :
    ∃ tables pages, Walk key limit cursor tables pages ∧ ∀ table ∈ tables, table = rows := by
  induction hleft : (past key cursor rows).length using Nat.strong_induction_on generalizing cursor with
  | _ left ih =>
    cases hpage : (page key limit cursor rows).2 with
    | none =>
      exact ⟨_, _, Walk.last hpage, fun table htable => List.mem_singleton.1 htable⟩
    | some c =>
      obtain ⟨hsplit, hlength⟩ := page_append_past hkeys hpage
      have hfewer : (past key (some c) rows).length < left := by
        rw [← hleft, hsplit, List.length_append, hlength]
        omega
      obtain ⟨tables, pages, hwalk, hfixed⟩ := ih _ hfewer (some c) rfl
      exact ⟨_, _, Walk.next hpage hwalk, List.forall_mem_cons.2 ⟨rfl, hfixed⟩⟩

/-- It makes a page for each `limit` rows that were begun, and one if there are none. -/
theorem Walk.length_eq {limit : ℕ} {cursor : Option κ} {tables pages : List (List ρ)}
    (h : Walk key limit cursor tables pages) (hlimit : 0 < limit) {rows : List ρ}
    (hkeys : (rows.map key).Nodup) (hfixed : ∀ table ∈ tables, table = rows) :
    pages.length = max 1 (((past key cursor rows).length + limit - 1) / limit) := by
  induction h with
  | @last cursor table hnone =>
    rw [hfixed table (List.mem_cons_self ..)] at hnone
    have hshort : (past key cursor rows).length ≤ limit := by
      rw [← page_last hlimit hnone]
      unfold page at hnone ⊢
      simp only at hnone ⊢
      split
      · rw [List.length_take]
        exact min_le_left _ _
      · rename_i hle
        exact not_lt.1 hle
    have hdiv : ((past key cursor rows).length + limit - 1) / limit ≤ 1 := by
      rw [← Nat.lt_succ_iff, Nat.div_lt_iff_lt_mul hlimit]
      omega
    rw [List.length_singleton]
    omega
  | @next cursor table tables pages c hsome rest ih =>
    have htables := fun t ht => hfixed t (List.mem_cons_of_mem _ ht)
    rw [hfixed table (List.mem_cons_self ..)] at hsome
    obtain ⟨hsplit, hlength⟩ := page_append_past hkeys hsome
    -- the cursor was handed out because at least one more row was there
    have hmore : past key (some c) rows ≠ [] := by
      intro hempty
      have hall : (past key cursor rows).length = limit := by
        rw [hsplit, hempty, List.append_nil, hlength]
      unfold page at hsome
      simp only [List.length_take, hall] at hsome
      rw [if_neg (by omega)] at hsome
      cases hsome
    have hpositive : 0 < (past key (some c) rows).length := List.length_pos_iff.2 hmore
    rw [List.length_cons, ih htables, hsplit, List.length_append, hlength]
    have hdiv : (limit + (past key (some c) rows).length + limit - 1) / limit
        = ((past key (some c) rows).length + limit - 1) / limit + 1 := by
      rw [← Nat.add_div_right _ hlimit]
      congr 1
      omega
    have hone : 1 ≤ ((past key (some c) rows).length + limit - 1) / limit :=
      (Nat.one_le_div_iff hlimit).2 (by omega)
    omega

end Keyset
