import Mathlib.Data.List.Sort
import Playground.Knapsack
import Playground.Lib.Loop
import Playground.Lib.Packing

/-!
# Both versions find the greatest value that fits

Row `i` of the table has the greatest values of the first `i` items, and the
single row becomes the next one from its right end. The backtracking keeps the
value that the indices it has selected and the cell it is at add up to.
-/

namespace Playground.Knapsack

open Packing
open scoped List

variable {items : List Item} {item : Item} {capacity c : Int}

/-! ## One row -/

theorem mem_countDown {hi lo w : Int} : w ∈ countDown hi lo ↔ lo ≤ w ∧ w ≤ hi := by
  simp [countDown]
  constructor
  · rintro ⟨k, hk, rfl⟩
    omega
  · intro h
    exact ⟨(hi - w).toNat, by omega, by omega⟩

theorem pairwise_countDown (hi lo : Int) : (countDown hi lo).Pairwise (· > ·) := by
  apply List.pairwise_map.mpr
  apply List.pairwise_lt_range.imp
  intro a b h
  omega

def row (m : Nat) (f : Int → Int) : List Int := Fill.vec (m + 1) fun w => f (w : Nat)

theorem row_at {m : Nat} {w : Int} (f : Int → Int) (h : 0 ≤ w) (h' : w ≤ m) : Vec.at? (row m f) w = some (f w) := by
  obtain ⟨k, rfl⟩ := Int.eq_ofNat_of_zero_le h
  rw [row, Vec.at?_natCast]
  exact Fill.vec_get _ (by omega)

theorem row_write {m : Nat} {w : Int} (f : Int → Int) (h : 0 ≤ w) (h' : w ≤ m) (x : Int) :
    Vec.write (row m f) w.toNat x = some (row m (Function.update f w x)) := by
  obtain ⟨k, rfl⟩ := Int.eq_ofNat_of_zero_le h
  rw [row, Int.toNat_natCast, Fill.write_vec _ (by omega)]
  refine congrArg some (Fill.vec_congr fun j _ => ?_)
  simp only [Function.update_apply, Int.natCast_inj]

theorem itemRow_eq {m i : Nat} (hitem : items[i]? = some item) (hweight : 0 ≤ item.weight) :
    itemRow m (row m (bestOf Item.weight Item.value items i)) item =
      some (row m (bestOf Item.weight Item.value items (i + 1))) := by
  unfold itemRow
  rw [Fill.run (r := (· > ·)) (f := bestOf Item.weight Item.value items (i + 1)) (fun w w' h => by simp; omega)
    (pairwise_countDown m item.weight)]
  · refine congrArg some (Fill.vec_congr fun w hw => ?_)
    simp only
    by_cases hmem : (w : Int) ∈ countDown m item.weight
    · rw [if_pos hmem]
    · rw [if_neg hmem, bestOf_heavy hitem]
      rw [mem_countDown] at hmem
      omega
  · intro h w hw x
    obtain ⟨hlo, hhi⟩ := mem_countDown.mp hw
    exact row_write h (by omega) hhi x
  · intro w hw h _ hrest
    obtain ⟨hlo, hhi⟩ := mem_countDown.mp hw
    -- What is left of `w`, and `w`, are still as in the row before.
    have hskip : h w = bestOf Item.weight Item.value items i w := hrest w fun _ => lt_irrefl w
    have htake : h (w - item.weight) = bestOf Item.weight Item.value items i (w - item.weight) :=
      hrest _ fun _ => by simp; omega
    have hread : Vec.at? (row m h) w = some (h w) := row_at h (by omega) hhi
    have hread' : Vec.at? (row m h) (w - item.weight) = some (h (w - item.weight)) := row_at h (by omega) (by omega)
    rw [bestOf_fits hitem hlo, ← hskip, ← htake]
    simp [rowCell, hread, hread']

theorem rows_eq (hweight : ∀ x ∈ items, 0 ≤ x.weight) (m : Nat) :
    items.foldlM (itemRow m) (row m (bestOf Item.weight Item.value items 0)) =
      some (row m (bestOf Item.weight Item.value items items.length)) :=
  Loop.forEach_eq (s := fun i => row m (bestOf Item.weight Item.value items i))
    fun _ hi => itemRow_eq (List.getElem?_eq_getElem hi) (hweight _ (List.getElem_mem hi))

theorem row_zero (m : Nat) : row m (bestOf Item.weight Item.value items 0) = List.replicate (m + 1) 0 := by
  rw [← Fill.vec_const]
  exact Fill.vec_congr fun w _ => bestOf_zero items w

theorem knapsackMaxValue_eq (hweight : ∀ x ∈ items, 0 ≤ x.weight) (hcapacity : 0 ≤ capacity)
    (hlt : capacity < 2 ^ 31 - 1) :
    knapsackMaxValue items capacity = some (bestOf Item.weight Item.value items items.length capacity) := by
  obtain ⟨m, rfl⟩ := Int.eq_ofNat_of_zero_le hcapacity
  have hrows := rows_eq hweight m
  rw [row_zero] at hrows
  have hfit : CInt.fit ((m : Int) + 1) = some ((m + 1 : Nat) : Int) := CInt.fit_succ (by omega)
  simp only [knapsackMaxValue, hfit, Vec.create_natCast, hrows, row_at _ hcapacity (Int.le_refl _),
    Option.bind_eq_bind, Option.bind_some]

/-! ## The table -/

theorem cellAt_natCast (dp : List (List Int)) (i w : Nat) : cellAt dp i w = Fill.read dp (i, w) := by
  simp [cellAt, Fill.read]

theorem tableCell_eq {dp : List (List Int)} {i w : Nat} (hitem : items[i]? = some item) (hweight : 0 ≤ item.weight)
    (hread : ∀ k ≤ w, Fill.read dp (i, k) = some (bestOf Item.weight Item.value items i (k : Nat))) :
    tableCell items dp (i + 1, w) = some (bestOf Item.weight Item.value items (i + 1) (w : Nat)) := by
  have hskip : cellAt dp i w = some (bestOf Item.weight Item.value items i w) := by
    rw [cellAt_natCast]
    exact hread w (Nat.le_refl w)
  by_cases hfit : item.weight ≤ w
  · obtain ⟨k, hk⟩ := Int.eq_ofNat_of_zero_le (Int.sub_nonneg.mpr hfit)
    have htake :
      cellAt dp i (w - item.weight) = some (bestOf Item.weight Item.value items i (w - item.weight)) := by
      rw [hk, cellAt_natCast]
      exact hread k (by omega)
    simp [tableCell, hskip, hitem, hfit, htake, bestOf_fits hitem hfit]
  · simp [tableCell, hskip, hitem, hfit, bestOf_heavy hitem (Int.not_le.mp hfit)]

def table (items : List Item) (m : Nat) : List (List Int) :=
  Fill.grid (items.length + 1) (m + 1) fun c => bestOf Item.weight Item.value items c.1 (c.2 : Nat)

theorem table_at {m i : Nat} {w : Int} (hi : i ≤ items.length) (h : 0 ≤ w) (h' : w ≤ m) :
    cellAt (table items m) i w = some (bestOf Item.weight Item.value items i w) := by
  obtain ⟨k, rfl⟩ := Int.eq_ofNat_of_zero_le h
  rw [cellAt_natCast]
  exact Fill.read_grid _ (by simp; omega) (by simp; omega)

theorem fillTable_eq (hweight : ∀ x ∈ items, 0 ≤ x.weight) (m : Nat) :
    fillTable items items.length (m + 1) (List.replicate (items.length + 1) (List.replicate (m + 1) 0)) =
      some (table items m) := by
  unfold fillTable
  rw [← Fill.grid_const]
  apply Fill.run_grid List.pairwise_lt_range' List.pairwise_lt_range'
  · simp
    omega
  · simp
  · intro i hi j hj hout
    have hzero : i = 0 := by
      simp at hout
      omega
    simp [hzero]
  · intro i hi w hw dp hread
    obtain ⟨i, rfl⟩ := Nat.exists_eq_add_one.mpr (List.mem_range'_1.mp hi).1
    simp at hi hw
    have hitem : items[i]? = some items[i] := List.getElem?_eq_getElem (by omega)
    apply tableCell_eq hitem (hweight _ (List.getElem_mem _))
    intro k hk
    exact hread (i, k) (.inl (Nat.lt_succ_self i)) (by simp; omega)

/-! ## The backtracking -/

/-- What has been selected from item `i` on, and the cell of the first `i` items, add up. -/
structure BackInv (items : List Item) (capacity : Int) (i : Nat) (s : Back) : Prop where
  increasing : s.selected.reverse.Pairwise (· < ·)
  within : ∀ k ∈ s.selected, i ≤ k ∧ k < items.length
  nonneg : 0 ≤ s.w
  weight : totalWeight (picked items s.selected.reverse) + s.w = capacity
  value : totalValue (picked items s.selected.reverse) + bestOf Item.weight Item.value items i s.w =
    bestOf Item.weight Item.value items items.length capacity

theorem picked_cons {i : Nat} (h : items[i]? = some item) (l : List Nat) :
    picked items (i :: l) = item :: picked items l := by simp [picked, h]

theorem totalWeight_nonneg {l : List Item} (h : ∀ x ∈ l, 0 ≤ x.weight) : 0 ≤ totalWeight l := by
  apply List.sum_nonneg
  simp
  exact h

theorem BackInv.next {s : Back} {i m : Nat} (hweight : ∀ x ∈ items, 0 ≤ x.weight) (hi : i < items.length)
    (h : BackInv items m (i + 1) s) :
    ∃ s', backRound items (table items m) s (i + 1) = some s' ∧ BackInv items m i s' := by
  obtain ⟨w, selected⟩ := s
  obtain ⟨hinc, hwithin, hnonneg, hw, hv⟩ := h
  simp only at hinc hwithin hnonneg hw hv
  have hitem : items[i]? = some items[i] := List.getElem?_eq_getElem hi
  have hpicked : 0 ≤ totalWeight (picked items selected.reverse) := by
    apply totalWeight_nonneg
    intro x hx
    obtain ⟨k, -, hk⟩ := List.mem_filterMap.mp hx
    exact hweight x (List.mem_of_getElem? hk)
  have hcell : cellAt (table items m) (i + 1) w = _ := table_at hi hnonneg (by omega)
  have hskip : cellAt (table items m) i w = _ := table_at (Nat.le_of_lt hi) hnonneg (by omega)
  by_cases heq : bestOf Item.weight Item.value items (i + 1) w = bestOf Item.weight Item.value items i w
  · refine ⟨⟨w, selected⟩, by simp [backRound, hcell, hskip, heq], hinc, ?_, hnonneg, hw, ?_⟩
    · intro k hk
      have := hwithin k hk
      omega
    · rw [← heq]
      exact hv
  · obtain ⟨hfit, htake⟩ := bestOf_ne hitem heq
    refine ⟨⟨w - items[i].weight, selected ++ [i]⟩, by simp [backRound, hcell, hskip, heq, hitem], ?_, ?_,
      ?_, ?_, ?_⟩
    · simp
      exact ⟨fun k hk => (hwithin k hk).1, by simpa using hinc⟩
    · intro k hk
      rcases List.mem_append.mp hk with hk | hk
      · have := hwithin k hk
        omega
      · simp at hk
        omega
    · simp
      omega
    · rw [List.reverse_append, List.reverse_singleton, List.singleton_append, picked_cons hitem]
      simp [totalWeight] at hw ⊢
      omega
    · rw [List.reverse_append, List.reverse_singleton, List.singleton_append, picked_cons hitem]
      simp [totalValue] at hv ⊢
      omega

theorem backtrack_eq {m : Nat} (hweight : ∀ x ∈ items, 0 ≤ x.weight) (i : Nat) (hi : i ≤ items.length) {s : Back}
    (h : BackInv items m i s) :
      ∃ s', (List.range' 1 i).reverse.foldlM (backRound items (table items m)) s = some s' ∧
      BackInv items m 0 s' := by
  induction i generalizing s with
  | zero => exact ⟨s, rfl, h⟩
  | succ i ih =>
    obtain ⟨s', hround, h'⟩ := h.next hweight hi
    obtain ⟨t, hrest, ht⟩ := ih (Nat.le_of_succ_le hi) h'
    have hround' : backRound items (table items m) s (1 + i) = some s' := by rw [Nat.add_comm, hround]
    refine ⟨t, ?_, ht⟩
    simp [List.range'_concat, hround']
    simpa using hrest

theorem knapsackWithItems_eq (hweight : ∀ x ∈ items, 0 ≤ x.weight) (hlength : items.length < 2 ^ 31 - 1)
    (hcapacity : 0 ≤ capacity) (hlt : capacity < 2 ^ 31 - 1) :
    ∃ selected, knapsackWithItems items capacity =
        some (bestOf Item.weight Item.value items items.length capacity, selected) ∧ Fits items capacity selected ∧
      totalValue (picked items selected) = bestOf Item.weight Item.value items items.length capacity := by
  obtain ⟨m, rfl⟩ := Int.eq_ofNat_of_zero_le hcapacity
  have hstart : BackInv items m items.length { w := (m : Int) } := by
    constructor
    · simp
    · simp
    · exact hcapacity
    · simp [picked, totalWeight]
    · simp [picked, totalValue]
  obtain ⟨s, hrun, hs⟩ := backtrack_eq hweight items.length (Nat.le_refl _) hstart
  have hrows : CInt.fit ((items.length : Int) + 1) = some ((items.length + 1 : Nat) : Int) :=
    CInt.fit_succ (by omega)
  have hcolumns : CInt.fit ((m : Int) + 1) = some ((m + 1 : Nat) : Int) := CInt.fit_succ (by omega)
  obtain ⟨last, hlast, hbest⟩ := Option.bind_eq_some_iff.mp
    (table_at (Nat.le_refl items.length) hcapacity (Int.le_refl (m : Int)))
  have hlast' : Vec.at? (table items m) (items.length : Nat) = some last := (Vec.at?_natCast _ _).trans hlast
  refine ⟨s.selected.reverse, ?_, ⟨hs.increasing, ?_, ?_⟩, ?_⟩
  · simp only [knapsackWithItems, CInt.ofSize_of_lt (Nat.lt_of_lt_of_le hlength (by decide)), hrows, hcolumns,
      Vec.create_natCast, Int.toNat_natCast, fillTable_eq hweight, hrun, hlast', hbest, Option.bind_eq_bind,
      Option.bind_some]
  · intro i hi
    exact (hs.within i (List.mem_reverse.mp hi)).2
  · have hw := hs.weight
    have hnonneg := hs.nonneg
    omega
  · simpa using hs.value

/-! ## Subsets of the items -/

theorem picked_range (items : List Item) : picked items (List.range items.length) = items := by
  induction items with
  | nil => rfl
  | cons x l ih =>
    rw [List.length_cons, List.range_succ_eq_map, picked_cons rfl]
    simpa [picked, List.filterMap_map, Function.comp_def] using ih

theorem Fits.sublist {selected : List Nat} (h : Fits items capacity selected) : picked items selected <+ items := by
  have hsub : selected ⊆ List.range items.length := fun i hi => List.mem_range.mpr (h.within i hi)
  have hsorted := List.sublist_of_subperm_of_pairwise (List.subperm_of_subset h.increasing.nodup hsub) h.increasing
    List.pairwise_lt_range
  have hpicked : picked items selected <+ picked items (List.range items.length) := hsorted.filterMap (items[·]?)
  rwa [picked_range] at hpicked

/-- **Both versions return the greatest value of a subset that fits, and the
second such a subset of that value.** -/
theorem knapsack_best (items : List Item) (hweight : ∀ x ∈ items, 0 ≤ x.weight)
    (hlength : items.length < 2 ^ 31 - 1) (hcapacity : 0 ≤ capacity) (hlt : capacity < 2 ^ 31 - 1) :
    ∃ best selected, knapsackWithItems items capacity = some (best, selected) ∧
      knapsackMaxValue items capacity = some best ∧ Fits items capacity selected ∧
      totalValue (picked items selected) = best ∧
      IsGreatest { v | ∃ s, Fits items capacity s ∧ totalValue (picked items s) = v } best := by
  obtain ⟨selected, hrun, hfits, hvalue⟩ := knapsackWithItems_eq hweight hlength hcapacity hlt
  refine ⟨_, selected, hrun, knapsackMaxValue_eq hweight hcapacity hlt, hfits, hvalue,
    ⟨selected, hfits, hvalue⟩, ?_⟩
  rintro v ⟨s, hs, rfl⟩
  exact (isGreatest_bestOf hweight hcapacity).2 ⟨picked items s, hs.sublist, hs.weight, rfl⟩

example : knapsackWithItems [⟨2, 6⟩, ⟨3, 8⟩, ⟨5, 12⟩, ⟨1, 4⟩, ⟨4, 10⟩] 8 = some (22, [0, 2, 3]) ∧
    knapsackMaxValue [⟨2, 6⟩, ⟨3, 8⟩, ⟨5, 12⟩, ⟨1, 4⟩, ⟨4, 10⟩] 8 = some 22 := by decide

theorem knapsack_best_example : ∃ best selected, knapsackWithItems [⟨2, 6⟩, ⟨3, -1⟩] 4 = some (best, selected) ∧
    knapsackMaxValue [⟨2, 6⟩, ⟨3, -1⟩] 4 = some best ∧ Fits [⟨2, 6⟩, ⟨3, -1⟩] 4 selected ∧
    totalValue (picked [⟨2, 6⟩, ⟨3, -1⟩] selected) = best ∧
    IsGreatest { v | ∃ s, Fits [⟨2, 6⟩, ⟨3, -1⟩] 4 s ∧ totalValue (picked [⟨2, 6⟩, ⟨3, -1⟩] s) = v } best :=
  knapsack_best [⟨2, 6⟩, ⟨3, -1⟩] (by simp) (by decide) (by decide) (by decide)

/-- With the capacity `2 ^ 31 - 1` the size of a row overflows. -/
theorem knapsack_long : ¬ ∀ (items : List Item) (capacity : Int), (∀ x ∈ items, 0 ≤ x.weight) → 0 ≤ capacity →
    ∃ best selected, knapsackWithItems items capacity = some (best, selected) ∧
      knapsackMaxValue items capacity = some best := by
  intro h
  obtain ⟨best, selected, -, hrun⟩ := h [] 2147483647 (by simp) (by decide)
  have hfit : CInt.fit (2147483647 + 1) = none := CInt.fit_of_le (by decide)
  rw [knapsackMaxValue, hfit] at hrun
  cases hrun

end Playground.Knapsack
