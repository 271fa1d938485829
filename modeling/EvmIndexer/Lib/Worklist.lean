/-
A library of worklists served through a window.

Every item of the list waits at a place. A pass asks about the lowest `limit` places that have
an item, from the lowest on, up to the first that gets no answer; the items an answer settles
leave the list, and no item joins it.

Items that no answer settles stay, and so do their places in the window. Passes go on settling
items just as long as some place that is asked about settles one (`settles_all_iff`). Where an
item can only be settled at its own place, this can be read off the first list: fewer than
`limit` places below the item have one that cannot be settled, and all of them get an answer
(`settles_all_in_place_iff`).
-/
import Mathlib.Data.List.Dedup
import Mathlib.Data.List.MinMax
import Mathlib.Data.List.Sort
import Mathlib.Logic.Function.Iterate

set_option autoImplicit false

namespace Worklist

/-! ## Sorted lists

Whether an element is among the first of a sorted list, or before the first failure of a
test, can be said by the elements below it.
-/

section Sorted

variable {κ : Type} [LinearOrder κ] {l : List κ}

/-- The first `n` of a strictly sorted list are those with fewer than `n` below them. -/
theorem mem_take_iff (hsorted : l.Pairwise (· < ·)) {n : Nat} {k : κ} :
    k ∈ l.take n ↔ k ∈ l ∧ (l.filter (· < k)).length < n := by
  induction l generalizing n with
  | nil => simp
  | cons a l ih =>
    obtain ⟨ha, hl⟩ := List.pairwise_cons.1 hsorted
    cases n with
    | zero => simp
    | succ n =>
      rw [List.take_succ_cons, List.mem_cons, ih hl, List.mem_cons]
      constructor
      · rintro (rfl | ⟨hk, hbelow⟩)
        · -- nothing is below the first item
          have hnone : l.filter (· < k) = [] := by
            refine List.filter_eq_nil_iff.2 fun b hb => ?_
            simpa using (ha b hb).le
          exact ⟨Or.inl rfl, by simp [hnone]⟩
        · have hfilter : (a :: l).filter (· < k) = a :: l.filter (· < k) :=
            List.filter_cons_of_pos (decide_eq_true (ha k hk))
          rw [hfilter, List.length_cons]
          exact ⟨Or.inr hk, Nat.succ_lt_succ hbelow⟩
      · rintro ⟨rfl | hk, hbelow⟩
        · exact Or.inl rfl
        · have hfilter : (a :: l).filter (· < k) = a :: l.filter (· < k) :=
            List.filter_cons_of_pos (decide_eq_true (ha k hk))
          rw [hfilter, List.length_cons] at hbelow
          exact Or.inr ⟨hk, Nat.lt_of_succ_lt_succ hbelow⟩

/-- What a sorted list is taken of while a test holds are the items all lower ones pass it with. -/
theorem mem_takeWhile_iff (hsorted : l.Pairwise (· < ·)) {p : κ → Bool} {k : κ} :
    k ∈ l.takeWhile p ↔ k ∈ l ∧ ∀ b ∈ l, b ≤ k → p b = true := by
  induction l with
  | nil => simp
  | cons a l ih =>
    obtain ⟨ha, hl⟩ := List.pairwise_cons.1 hsorted
    rw [List.takeWhile_cons]
    by_cases hp : p a = true
    · -- the first item passes, so the test goes on with the others
      rw [if_pos hp, List.mem_cons, List.mem_cons, ih hl]
      constructor
      · rintro (rfl | ⟨hk, hall⟩)
        · refine ⟨Or.inl rfl, fun b hb hle => ?_⟩
          rcases List.mem_cons.1 hb with rfl | hb
          · exact hp
          · exact absurd hle (not_le.2 (ha b hb))
        · refine ⟨Or.inr hk, fun b hb hle => ?_⟩
          rcases List.mem_cons.1 hb with rfl | hb
          · exact hp
          · exact hall b hb hle
      · rintro ⟨rfl | hk, hall⟩
        · exact Or.inl rfl
        · exact Or.inr ⟨hk, fun b hb => hall b (List.mem_cons_of_mem a hb)⟩
    · -- the first item fails, and it is below all others
      rw [if_neg hp]
      refine ⟨fun h => absurd h List.not_mem_nil, ?_⟩
      rintro ⟨hk, hall⟩
      have hle : a ≤ k := by
        rcases List.mem_cons.1 hk with rfl | hk
        · exact le_rfl
        · exact (ha k hk).le
      exact absurd (hall a (List.mem_cons_self ..) hle) hp

end Sorted

/-! ## Passes

A pass looks at places and settles items. It is served if it settles at least one, and then
the list gets shorter; if it is not, the list stays and every later pass is the same.
-/

/-- What a pass needs to know: where an item waits, how many places it asks about, which of
them get an answer, and which items the answer settles. -/
structure Desk (ι κ : Type) where
  place : ι → κ
  limit : Nat
  answers : κ → Bool
  settles : κ → ι → Bool

namespace Desk

variable {ι κ : Type} [LinearOrder κ] (desk : Desk ι κ)

/-- The places that have an item, from the lowest on. -/
def places (todo : List ι) : List κ := (todo.map desk.place).dedup.insertionSort (· ≤ ·)

/-- The places a pass asks about and gets an answer for. -/
def asked (todo : List ι) : List κ := ((desk.places todo).take desk.limit).takeWhile desk.answers

/-- A pass: what is settled leaves the list. -/
def pass (todo : List ι) : List ι :=
  todo.filter fun i => !(desk.asked todo).any fun k => desk.settles k i

/-- The places below one that have an item. -/
def below (todo : List ι) (k : κ) : List κ := (desk.places todo).filter (· < k)

/-- Some place that is asked about settles an item: it has an item itself, fewer than `limit`
places below it have one, and it is answered, as are all of these. -/
def Served (todo : List ι) : Prop :=
  ∃ k, k ∈ todo.map desk.place ∧ (desk.below todo k).length < desk.limit ∧
    (∀ i ∈ todo, desk.place i ≤ k → desk.answers (desk.place i) = true) ∧
    ∃ i ∈ todo, desk.settles k i = true

variable {desk} {todo : List ι}

theorem mem_places {k : κ} : k ∈ desk.places todo ↔ k ∈ todo.map desk.place := by
  unfold places
  rw [List.mem_insertionSort, List.mem_dedup]

/-- No place is there twice. -/
theorem places_sorted (desk : Desk ι κ) (todo : List ι) :
    (desk.places todo).Pairwise (· < ·) := by
  have hle : (desk.places todo).Pairwise (· ≤ ·) := List.pairwise_insertionSort _ _
  have hnodup : (desk.places todo).Nodup :=
    (List.perm_insertionSort _ _).nodup_iff.2 (List.nodup_dedup _)
  exact (hle.and hnodup).imp fun h => lt_of_le_of_ne h.1 h.2

/-- The places that are asked about and answered. -/
theorem mem_asked {k : κ} :
    k ∈ desk.asked todo ↔ k ∈ todo.map desk.place ∧ (desk.below todo k).length < desk.limit ∧
      ∀ i ∈ todo, desk.place i ≤ k → desk.answers (desk.place i) = true := by
  have hsorted := places_sorted desk todo
  unfold asked
  rw [mem_takeWhile_iff (hsorted.sublist (List.take_sublist _ _)), mem_take_iff hsorted, mem_places,
    and_assoc]
  refine and_congr_right fun hk => and_congr_right fun hwindow => ?_
  constructor
  · intro hall i hi hle
    have hplace : desk.place i ∈ desk.places todo := mem_places.2 (List.mem_map_of_mem hi)
    -- a place below one in the window is in the window
    have hbelow : (desk.below todo (desk.place i)).length ≤ (desk.below todo k).length :=
      (List.monotone_filter_right _ fun b hb =>
        decide_eq_true ((of_decide_eq_true hb).trans_le hle)).length_le
    exact hall _ ((mem_take_iff hsorted).2 ⟨hplace, hbelow.trans_lt hwindow⟩) hle
  · intro hall b hb hle
    obtain ⟨i, hi, rfl⟩ := List.mem_map.1 (mem_places.1 (List.mem_of_mem_take hb))
    exact hall i hi hle

theorem mem_pass {i : ι} :
    i ∈ desk.pass todo ↔ i ∈ todo ∧ ∀ k ∈ desk.asked todo, ¬ desk.settles k i = true := by
  unfold pass
  rw [List.mem_filter, Bool.not_eq_true', List.any_eq_false]

/-- Where nothing is settled, the list stays. -/
theorem pass_of_not_served (h : ¬ desk.Served todo) : desk.pass todo = todo := by
  refine List.filter_eq_self.2 fun i hi => ?_
  rw [Bool.not_eq_true', List.any_eq_false]
  intro k hk hsettles
  obtain ⟨hplace, hbelow, hanswers⟩ := mem_asked.1 hk
  exact h ⟨k, hplace, hbelow, hanswers, i, hi, hsettles⟩

/-- Where something is settled, the list gets shorter. -/
theorem pass_lt_of_served (h : desk.Served todo) : (desk.pass todo).length < todo.length := by
  obtain ⟨k, hplace, hbelow, hanswers, i, hi, hsettles⟩ := h
  refine List.length_filter_lt_length_iff_exists.2 ⟨i, hi, ?_⟩
  have hany : ((desk.asked todo).any fun k => desk.settles k i) = true :=
    List.any_eq_true.2 ⟨k, mem_asked.2 ⟨hplace, hbelow, hanswers⟩, hsettles⟩
  rw [hany]
  exact Bool.not_true ▸ Bool.false_ne_true

/-! ## Repeated passes

So the passes make progress up to some point, and none after it. They settle all items of a
kind just if no such item is left where that point is.
-/

/-- No item joins the list. -/
theorem mem_of_mem_iterate {i : ι} {n : Nat} (h : i ∈ desk.pass^[n] todo) : i ∈ todo := by
  induction n generalizing todo with
  | zero => exact h
  | succ n ih =>
    rw [Function.iterate_succ_apply] at h
    exact (mem_pass.1 (ih h)).1

/-- A list that one pass leaves as it is stays for good. -/
theorem iterate_of_not_served (h : ¬ desk.Served todo) (n : Nat) : desk.pass^[n] todo = todo :=
  Function.iterate_fixed (pass_of_not_served h) n

/-- Repeated passes rid the list of some kind of items just if each of them settles something
as long as such an item is left. -/
theorem settles_all_iff (P : ι → Prop) :
    (∃ n, ∀ m ≥ n, ∀ i ∈ desk.pass^[m] todo, ¬ P i) ↔
      ∀ n, (∃ i ∈ desk.pass^[n] todo, P i) → desk.Served (desk.pass^[n] todo) := by
  constructor
  · rintro ⟨n, hdone⟩ m ⟨i, hi, hP⟩
    by_contra hstuck
    have hstays : desk.pass^[n + m] todo = desk.pass^[m] todo := by
      rw [Function.iterate_add_apply, iterate_of_not_served hstuck]
    exact hdone (n + m) (Nat.le_add_right n m) i (hstays ▸ hi) hP
  · -- on the length of the list, which each pass lowers
    induction hlength : todo.length using Nat.strong_induction_on generalizing todo with
    | _ length ih =>
      intro hserved
      by_cases hleft : ∃ i ∈ todo, P i
      · have hshorter := pass_lt_of_served (hserved 0 hleft)
        have hrest : ∀ n, (∃ i ∈ desk.pass^[n] (desk.pass todo), P i) →
            desk.Served (desk.pass^[n] (desk.pass todo)) := fun n => hserved (n + 1)
        obtain ⟨n, hdone⟩ := ih _ (hlength ▸ hshorter) rfl hrest
        refine ⟨n + 1, fun m hm => ?_⟩
        obtain ⟨m, rfl⟩ : ∃ earlier, m = earlier + 1 := ⟨m - 1, by omega⟩
        exact hdone m (by omega)
      · exact ⟨0, fun m _ i hi hP => hleft ⟨i, mem_of_mem_iterate hi, hP⟩⟩

/-! ## Items settled at their own place

An item that can be settled is, once its place is in the window. The window moves over the
places of items that are settled, and stands on those of items that never are, so only the
latter count.
-/

variable (desk)

/-- No item is settled by the answer for another place than its own. -/
def InPlace (todo : List ι) : Prop :=
  ∀ i ∈ todo, ∀ k, desk.answers k = true → desk.settles k i = true → k = desk.place i

/-- The item is settled once its place is asked about. -/
def settleable (i : ι) : Bool := desk.answers (desk.place i) && desk.settles (desk.place i) i

/-- The items that passes never settle. -/
def stuck (todo : List ι) : List ι := todo.filter fun i => !desk.settleable i

/-- What stays in the list does not keep the item out of the window: fewer than `limit` places
below it have an item that is never settled, and every place below it is answered. -/
structure Clear (todo : List ι) (i : ι) : Prop where
  few : (desk.below (desk.stuck todo) (desk.place i)).length < desk.limit
  answered : ∀ j ∈ todo, desk.place j < desk.place i → desk.answers (desk.place j) = true

variable {desk}

theorem mem_below {k b : κ} :
    b ∈ desk.below todo k ↔ (∃ i ∈ todo, desk.place i = b) ∧ b < k := by
  unfold below
  rw [List.mem_filter, mem_places, List.mem_map, decide_eq_true_iff]

omit [LinearOrder κ] in
theorem mem_stuck {i : ι} : i ∈ desk.stuck todo ↔ i ∈ todo ∧ ¬ desk.settleable i = true := by
  unfold stuck
  rw [List.mem_filter, Bool.not_eq_true', Bool.not_eq_true]

/-- As many places as are among others. -/
theorem below_le_below {other : List ι} {k : κ} (h : desk.below todo k ⊆ desk.below other k) :
    (desk.below todo k).length ≤ (desk.below other k).length := by
  have hsorted := (places_sorted desk todo).sublist (List.filter_sublist (p := (· < k)))
  exact (List.subperm_of_subset (hsorted.imp ne_of_lt) h).length_le

/-- An item whose place is asked about while all that is never settled is still there. -/
theorem clear_of_mem_asked {i : ι} {later : List ι} (hstuck : ∀ j ∈ desk.stuck todo, j ∈ later)
    (hasked : desk.place i ∈ desk.asked later) : desk.Clear todo i := by
  obtain ⟨-, hbelow, hanswers⟩ := mem_asked.1 hasked
  constructor
  · refine lt_of_le_of_lt (below_le_below fun b hb => ?_) hbelow
    obtain ⟨⟨j, hj, hplace⟩, hlt⟩ := mem_below.1 hb
    exact mem_below.2 ⟨⟨j, hstuck j hj, hplace⟩, hlt⟩
  · intro j hj hlt
    by_cases hsettled : desk.settleable j = true
    · exact (Bool.and_eq_true_iff.1 hsettled).1
    · exact hanswers j (hstuck j (mem_stuck.2 ⟨hj, hsettled⟩)) hlt.le

/-- What is never settled stays, and so does an item it keeps out of the window. -/
theorem stays_of_not_clear (hplace : desk.InPlace todo) {i : ι} (hi : i ∈ todo)
    (hclear : ¬ desk.Clear todo i) (n : Nat) :
    i ∈ desk.pass^[n] todo ∧ ∀ j ∈ desk.stuck todo, j ∈ desk.pass^[n] todo := by
  induction n with
  | zero => exact ⟨hi, fun j hj => (mem_stuck.1 hj).1⟩
  | succ n ih =>
    obtain ⟨hleft, hstuck⟩ := ih
    -- an answer that settles an item is one for the item's place
    have hown : ∀ j ∈ todo, ∀ k ∈ desk.asked (desk.pass^[n] todo), desk.settles k j = true →
        desk.answers k = true ∧ k = desk.place j := by
      intro j hj k hk hsettles
      obtain ⟨hmem, -, hanswers⟩ := mem_asked.1 hk
      obtain ⟨other, hother, rfl⟩ := List.mem_map.1 hmem
      have hanswer := hanswers other hother le_rfl
      exact ⟨hanswer, hplace j hj _ hanswer hsettles⟩
    rw [Function.iterate_succ_apply']
    constructor
    · refine mem_pass.2 ⟨hleft, fun k hk hsettles => ?_⟩
      obtain ⟨-, rfl⟩ := hown i hi k hk hsettles
      exact hclear (clear_of_mem_asked hstuck hk)
    · intro j hj
      refine mem_pass.2 ⟨hstuck j hj, fun k hk hsettles => ?_⟩
      obtain ⟨hmem, hnot⟩ := mem_stuck.1 hj
      obtain ⟨hanswer, rfl⟩ := hown j hmem k hk hsettles
      exact hnot (Bool.and_eq_true_iff.2 ⟨hanswer, hsettles⟩)

/-- An item that is left, with nothing below it but what is never settled, is settled next. -/
theorem served_of_clear (hclear : ∀ i ∈ todo, desk.settleable i = true → desk.Clear todo i)
    {n : Nat} (hleft : ∃ i ∈ desk.pass^[n] todo, desk.settleable i = true) :
    desk.Served (desk.pass^[n] todo) := by
  obtain ⟨first, hfirst⟩ : ∃ i, i ∈ ((desk.pass^[n] todo).filter desk.settleable).argmin desk.place := by
    refine Option.isSome_iff_exists.1 (Option.isSome_iff_ne_none.2 fun hnone => ?_)
    obtain ⟨i, hi, hsettled⟩ := hleft
    have hmem : i ∈ (desk.pass^[n] todo).filter desk.settleable := List.mem_filter.2 ⟨hi, hsettled⟩
    rw [List.argmin_eq_none.1 hnone] at hmem
    exact List.not_mem_nil hmem
  obtain ⟨hmem, hsettled⟩ := List.mem_filter.1 (List.argmin_mem hfirst)
  have hthis := hclear first (mem_of_mem_iterate hmem) hsettled
  obtain ⟨hanswers, hsettles⟩ := Bool.and_eq_true_iff.1 hsettled
  refine ⟨desk.place first, List.mem_map_of_mem hmem, ?_, ?_, first, hmem, hsettles⟩
  · refine lt_of_le_of_lt (below_le_below fun b hb => ?_) hthis.few
    obtain ⟨⟨j, hj, rfl⟩, hlt⟩ := mem_below.1 hb
    refine mem_below.2 ⟨⟨j, mem_stuck.2 ⟨mem_of_mem_iterate hj, fun hlower => ?_⟩, rfl⟩, hlt⟩
    -- the item is the lowest that can be settled
    exact absurd (List.le_of_mem_argmin (List.mem_filter.2 ⟨hj, hlower⟩) hfirst) (not_le.2 hlt)
  · intro j hj hle
    rcases hle.lt_or_eq with hlt | heq
    · exact hthis.answered j (mem_of_mem_iterate hj) hlt
    · rw [heq]
      exact hanswers

/-- Where items are settled at their own place, repeated passes settle all that can be settled
just if none of them is kept out of the window. -/
theorem settles_all_in_place_iff (hplace : desk.InPlace todo) :
    (∃ n, ∀ m ≥ n, ∀ i ∈ desk.pass^[m] todo, ¬ desk.settleable i = true) ↔
      ∀ i ∈ todo, desk.settleable i = true → desk.Clear todo i := by
  constructor
  · rintro ⟨n, hdone⟩ i hi hsettled
    by_contra hclear
    exact hdone n le_rfl i (stays_of_not_clear hplace hi hclear n).1 hsettled
  · intro hclear
    exact (settles_all_iff fun i => desk.settleable i = true).2 fun n => served_of_clear hclear

end Desk

end Worklist
