import Mathlib.Algebra.Order.BigOperators.Group.List
import Mathlib.Data.Rat.Floor
import Mathlib.Tactic.FieldSimp
import Mathlib.Tactic.Linarith
import Playground.BinarySearchOnAnswer
import Playground.Lib.Bisect

/-!
# The answers that are found

Slower speeds take more hours, and smaller bounds more parts, so the search
ends at the least answer. What is shown for `fit` asks that it is exact up to
`top`, and holds for both arithmetics.
-/

namespace Playground.BinarySearchOnAnswer

open Bisect (Bisects mid)

/-- No overflow between `0` and `top`. -/
def Covers (fit : Int → Option Int) (top : Int) : Prop := ∀ x, 0 ≤ x → x ≤ top → fit x = some x

theorem covers_some (top : Int) : Covers some top := fun _ _ _ => rfl

theorem covers_fit : Covers CInt.fit (2 ^ 31 - 1) := fun _ h h' => CInt.fit_of (by omega) (by omega)

section
variable {fit : Int → Option Int} {top : Int} (hfit : Covers fit top)

include hfit

theorem search_bisects (feasible : Int → Option Bool) {lo hi : Int} (hlo : 0 ≤ lo) (hhi : hi ≤ top) :
    Bisects (searchBody fit feasible) feasible lo hi where
  exit := fun s hlt => by simp [searchBody, hlt]
  next := by
    intro s hw hlt
    have hle := hw.lo_le
    have hmid := hw.mid_lt hlt
    have hwidth : fit (s.2 - s.1) = some (s.2 - s.1) := hfit _ (by omega) (by have := hw.le_hi; omega)
    have hfitmid : fit (s.1 + (s.2 - s.1).tdiv 2) = some (mid s.1 s.2) := by
      rw [Int.tdiv_eq_ediv_of_nonneg (by omega)]
      exact hfit _ (Int.le_trans hlo hmid.1) (by change mid s.1 s.2 ≤ top; omega)
    have hnext : fit (mid s.1 s.2 + 1) = some (mid s.1 s.2 + 1) := hfit _ (by omega) (by omega)
    rw [searchBody, if_pos hlt]
    congr 1
    simp only [searchRound, hwidth, hfitmid, Option.bind_eq_bind, Option.bind_some]
    cases feasible (mid s.1 s.2) with
    | none => rfl
    | some b =>
      cases b with
      | false => simp [hnext, Bisect.narrow]
      | true => simp [Bisect.narrow]

omit hfit in
theorem exists_max {l : List Int} (hne : l ≠ []) : ∃ k, l.max? = some k ∧ k ∈ l ∧ ∀ x ∈ l, x ≤ k := by
  obtain ⟨k, hk⟩ := Option.ne_none_iff_exists'.mp (mt List.max?_eq_none_iff.mp hne)
  exact ⟨k, hk, List.max?_eq_some_iff.mp hk⟩

/-! ## The least speed -/

omit hfit in
theorem ceil_eq {speed : Int} (hspeed : 0 < speed) (pile : Int) :
    ⌈(pile : ℚ) / speed⌉ = (pile + speed - 1) / speed := by
  have hpos : (0 : ℚ) < speed := Int.cast_pos.mpr hspeed
  have hdiv := Int.mul_ediv_add_emod (pile + speed - 1) speed
  have hmod := Int.emod_nonneg (pile + speed - 1) hspeed.ne'
  have hmod' := Int.emod_lt_of_pos (pile + speed - 1) hspeed
  generalize (pile + speed - 1) / speed = hours at *
  rw [Int.ceil_eq_iff, lt_div_iff₀ hpos, div_le_iff₀ hpos]
  constructor
  · have hlt : (hours - 1) * speed < pile := by
      rw [Int.sub_mul, Int.mul_comm hours]
      omega
    exact_mod_cast hlt
  · have hle : pile ≤ hours * speed := by
      rw [Int.mul_comm hours]
      omega
    exact_mod_cast hle

theorem addHours_eq {pile speed : Int} (hpile : 0 ≤ pile) (hspeed : 0 < speed) (htop : pile + speed ≤ top)
    (hoursNeeded : Int) : addHours fit speed hoursNeeded pile = some (hoursNeeded + ⌈(pile : ℚ) / speed⌉) := by
  have hsum : fit (pile + speed) = some (pile + speed) := hfit _ (by omega) htop
  have hdividend : fit (pile + speed - 1) = some (pile + speed - 1) := hfit _ (by omega) (by omega)
  rw [ceil_eq hspeed]
  simp [addHours, hsum, hdividend, hspeed.ne', Int.tdiv_eq_ediv_of_nonneg (show 0 ≤ pile + speed - 1 by omega)]

theorem canFinish_eq {piles : List Int} {h speed : Int} (hpiles : ∀ p ∈ piles, 0 ≤ p ∧ p + speed ≤ top)
    (hspeed : 0 < speed) : canFinish fit piles h speed = some (decide (hours piles speed ≤ h)) := by
  have hsum : ∀ acc, piles.foldlM (addHours fit speed) acc = some (acc + hours piles speed) := by
    induction piles with
    | nil => simp [hours]
    | cons p piles ih =>
      obtain ⟨hp, hpiles⟩ := List.forall_mem_cons.mp hpiles
      intro acc
      rw [List.foldlM_cons, addHours_eq hfit hp.1 hspeed hp.2, Option.bind_eq_bind, Option.bind_some, ih hpiles]
      simp [hours, Int.add_assoc]
  simp [canFinish, hsum]

end

theorem hours_anti {piles : List Int} (hpiles : ∀ p ∈ piles, 0 ≤ p) {a b : Int} (ha : 0 < a) (hab : a ≤ b) :
    hours piles b ≤ hours piles a := by
  refine List.sum_le_sum fun (p : Int) hp => Int.ceil_le_ceil ?_
  exact div_le_div_of_nonneg_left (Int.cast_nonneg (hpiles p hp)) (Int.cast_pos.mpr ha) (Int.cast_le.mpr hab)

theorem hours_largest {piles : List Int} {k : Int} (hk : 0 < k) (hpiles : ∀ p ∈ piles, p ≤ k) :
    hours piles k ≤ piles.length := by
  have hone : ∀ p ∈ piles, ⌈((p : Int) : ℚ) / k⌉ ≤ 1 := by
    intro p hp
    rw [Int.ceil_le, Int.cast_one, div_le_one (Int.cast_pos.mpr hk)]
    exact Int.cast_le.mpr (hpiles p hp)
  have hsum := List.sum_le_card_nsmul (piles.map fun p : Int => ⌈(p : ℚ) / k⌉) 1 (List.forall_mem_map.mpr hone)
  simpa [hours] using hsum

/-- **The least speed at which all piles are eaten in time.** -/
theorem minEatingSpeed_least (piles : List Int) (hne : piles ≠ []) (hpiles : ∀ p ∈ piles, 0 ≤ p) (h : Int)
    (hh : piles.length ≤ h) (fuel : Nat) (hfuel : ∀ p ∈ piles, p < fuel) :
    ∃ speed, minEatingSpeed some fuel piles h = some speed ∧
      IsLeast { k : Int | 1 ≤ k ∧ hours piles k ≤ h } speed := by
  obtain ⟨m, hm, hmem, hmax⟩ := exists_max hne
  have hnonneg := hpiles m hmem
  have hlast : ∀ k, 1 ≤ k → m ≤ k → hours piles k ≤ h := fun k hk hmk =>
    Int.le_trans (hours_largest hk fun p hp => Int.le_trans (hmax p hp) hmk) hh
  by_cases hpos : 1 ≤ m
  · have hsearch := search_bisects (covers_some m) (canFinish some piles h) Int.one_nonneg (Int.le_refl m)
    obtain ⟨k, hrun, hleast⟩ := hsearch.least (P := fun k => hours piles k ≤ h) (n := fuel)
      (fun k hk hkm =>
        canFinish_eq (covers_some (m + k)) (fun p hp => ⟨hpiles p hp, by have := hmax p hp; omega⟩) hk)
      (fun a b ha hab hle => Int.le_trans (hours_anti hpiles ha hab) hle) hpos (hlast m hpos (Int.le_refl m))
      (by have := hfuel m hmem; omega)
    exact ⟨k, by simp [minEatingSpeed, hm, hrun], hleast⟩
  · have hrun : Loop.run (searchBody some (canFinish some piles h)) fuel (1, m) = some (1, m) := by
      have hlt := hfuel m hmem
      obtain ⟨n, rfl⟩ : ∃ n, fuel = n + 1 := ⟨fuel - 1, by omega⟩
      exact Loop.run_exit (by simp [searchBody]; omega) n
    exact ⟨1, by simp [minEatingSpeed, hm, hrun], ⟨Int.le_refl 1, hlast 1 (Int.le_refl 1) (by omega)⟩,
      fun k hk => hk.1⟩

example : minEatingSpeed some 20 [30, 11, 23, 4, 20] 6 = some 23 := by decide

theorem minEatingSpeed_least_four : ∃ speed, minEatingSpeed some 12 [3, 6, 7, 11] 8 = some speed ∧
    IsLeast { k : Int | 1 ≤ k ∧ hours [3, 6, 7, 11] k ≤ 8 } speed :=
  minEatingSpeed_least [3, 6, 7, 11] (by decide) (by decide) 8 (by decide) 12 (by decide)

end Playground.BinarySearchOnAnswer
