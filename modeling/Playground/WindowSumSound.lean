import Mathlib.Algebra.Order.SuccPred.PartialSups
import Mathlib.Algebra.Ring.Int.Defs
import Mathlib.Data.Nat.SuccPred
import Mathlib.Order.Bounds.Basic
import Playground.Lib.Loop
import Playground.Lib.Vec
import Playground.SlidingWindow

/-!
# The greatest sum of a window

The sum that slides along is that of the window as long as nothing overflows,
and neither does the difference of what comes in and what goes out, which is
taken first.
-/

namespace Playground.SlidingWindow

open Vec

variable {nums : List Int} {w i j : Nat}

/-- The sum of the `w` elements from `j` on. -/
def windowSum (nums : List Int) (w j : Nat) : Int := ((nums.drop j).take w).sum

def InInt (x : Int) : Prop := -2 ^ 31 ≤ x ∧ x < 2 ^ 31

instance : DecidablePred InInt := fun x => inferInstanceAs (Decidable (-2 ^ 31 ≤ x ∧ x < 2 ^ 31))

/-- All the values that are computed are `int`s. -/
structure Fits (nums : List Int) (w : Nat) : Prop where
  first : ∀ i ≤ w, InInt (nums.take i).sum
  difference : ∀ j, j + w < nums.length → InInt (seq nums (j + w) - seq nums j)
  window : ∀ j, j + w ≤ nums.length → InInt (windowSum nums w j)

def IsWindowSum (nums : List Int) (w : Nat) (x : Int) : Prop := ∃ j, j + w ≤ nums.length ∧ windowSum nums w j = x

theorem sum_take_succ (h : i < nums.length) : (nums.take (i + 1)).sum = (nums.take i).sum + seq nums i := by
  rw [List.take_succ_eq_append_getElem h, List.sum_append]
  simp [seq, h]

theorem sum_take_add (j w : Nat) : (nums.take (j + w)).sum = (nums.take j).sum + windowSum nums w j := by
  rw [List.take_add, List.sum_append, windowSum]

theorem windowSum_succ (h : j + w < nums.length) :
    windowSum nums w (j + 1) = windowSum nums w j + (seq nums (j + w) - seq nums j) := by
  have hleft := sum_take_succ (show j < nums.length by omega)
  have hright := sum_take_succ h
  have hj := @sum_take_add nums j w
  have hj' := @sum_take_add nums (j + 1) w
  rw [Nat.add_right_comm] at hj'
  omega

/-! ## The two loops -/

theorem firstSum_iff {x : Int} : (List.range w).foldlM (addNext nums) 0 = some x ↔
    (w ≤ nums.length ∧ ∀ i ≤ w, InInt (nums.take i).sum) ∧ windowSum nums w 0 = x := by
  have hround : ∀ i (hi : i < (List.range w).length) (t : Int),
      addNext nums (nums.take i).sum (List.range w)[i] = some t ↔
      (i < nums.length ∧ InInt (nums.take (i + 1)).sum) ∧ (nums.take (i + 1)).sum = t := by
    intro i hi t
    rw [List.getElem_range, addNext]
    by_cases h : i < nums.length
    · rw [sum_take_succ h, getElem?_seq h]
      simp [CInt.fit_iff, InInt, h]
    · simp [h]
  have hrun := Loop.forEach_iff (s := fun i => (nums.take i).sum) hround (t := x)
  rw [List.length_range] at hrun
  refine hrun.trans (and_congr ?_ Iff.rfl)
  constructor
  · intro h
    refine ⟨?_, fun i hi => ?_⟩
    · by_contra hw
      exact absurd (h nums.length (by omega)).1 (Nat.lt_irrefl _)
    · cases i with
      | zero => exact ⟨by simp, by simp⟩
      | succ i => exact (h i hi).2
  · rintro ⟨hw, hfit⟩ i hi
    exact ⟨by omega, hfit (i + 1) hi⟩

theorem slide_iff {k : Int} (hk : start k = w) (hw : w ≤ nums.length) {t : Int × Int} :
    ((List.range nums.length).drop w).foldlM (slideRound nums k) (windowSum nums w 0, windowSum nums w 0) = some t ↔
      (∀ j < nums.length - w, InInt (seq nums (j + w) - seq nums j) ∧ InInt (windowSum nums w (j + 1))) ∧
        (windowSum nums w (nums.length - w), partialSups (windowSum nums w) (nums.length - w)) = t := by
  have hlen : ((List.range nums.length).drop w).length = nums.length - w := by simp
  have hround : ∀ j (hj : j < ((List.range nums.length).drop w).length) (t : Int × Int),
      slideRound nums k (windowSum nums w j, partialSups (windowSum nums w) j)
        ((List.range nums.length).drop w)[j] = some t ↔
        (InInt (seq nums (j + w) - seq nums j) ∧ InInt (windowSum nums w (j + 1))) ∧
          (windowSum nums w (j + 1), partialSups (windowSum nums w) (j + 1)) = t := by
    intro j hj t
    rw [hlen] at hj
    have hget : ((List.range nums.length).drop w)[j] = j + w := by simp [Nat.add_comm]
    have hsum := windowSum_succ (show j + w < nums.length by omega)
    have hmax : partialSups (windowSum nums w) (j + 1) = max (partialSups (windowSum nums w) j)
      (windowSum nums w (j + 1)) :=
      partialSups_add_one _ _
    rw [hget, slideRound, hk, Nat.add_sub_cancel, getElem?_seq (show j + w < nums.length by omega),
      getElem?_seq (show j < nums.length by omega), hmax, hsum]
    simp only [Option.bind_eq_bind, Option.bind_some, Option.bind_eq_some_iff, CInt.fit_iff, Option.some_inj]
    constructor
    · rintro ⟨_, ⟨hdiff, rfl⟩, _, ⟨hfit, rfl⟩, ht⟩
      exact ⟨⟨hdiff, hfit⟩, ht⟩
    · rintro ⟨⟨hdiff, hfit⟩, ht⟩
      exact ⟨_, ⟨hdiff, rfl⟩, _, ⟨hfit, rfl⟩, ht⟩
  have hrun :=
    Loop.forEach_iff (s := fun j => (windowSum nums w j, partialSups (windowSum nums w) j)) hround (t := t)
  rw [hlen] at hrun
  exact hrun

/-! ## The result -/

theorem isGreatest_iff (hw : w ≤ nums.length) {m : Int} :
    IsGreatest {x | IsWindowSum nums w x} m ↔ partialSups (windowSum nums w) (nums.length - w) = m := by
  have hgreatest : IsGreatest {x | IsWindowSum nums w x} (partialSups (windowSum nums w) (nums.length - w)) := by
    constructor
    · obtain ⟨j, hj, heq⟩ := exists_partialSups_eq (windowSum nums w) (nums.length - w)
      exact ⟨j, by omega, heq.symm⟩
    · rintro x ⟨j, hj, rfl⟩
      exact le_partialSups_of_le _ (by omega)
  constructor
  · exact fun h => hgreatest.unique h
  · rintro rfl
    exact hgreatest

theorem start_of {k : Int} (hk : 0 ≤ k) (hk' : k < 2 ^ 31) : start k = k.toNat := by
  rw [start, Int.emod_eq_of_lt hk (by omega)]

theorem start_of_neg {k : Int} (hk : k < 0) (hk' : -2 ^ 31 ≤ k) : 2 ^ 63 ≤ start k := by
  unfold start
  omega

theorem fits_zero (nums : List Int) : Fits nums 0 where
  first i hi := by simp [Nat.le_zero.mp hi, InInt]
  difference j _ := by simp [InInt]
  window j _ := by simp [windowSum, InInt]

theorem fits_iff (hw : w ≤ nums.length) : Fits nums w ↔ (∀ i ≤ w, InInt (nums.take i).sum) ∧
    ∀ j < nums.length - w, InInt (seq nums (j + w) - seq nums j) ∧ InInt (windowSum nums w (j + 1)) := by
  constructor
  · intro h
    exact ⟨h.first, fun j hj => ⟨h.difference j (by omega), h.window (j + 1) (by omega)⟩⟩
  · rintro ⟨hfirst, hslide⟩
    refine ⟨hfirst, fun j hj => (hslide j (by omega)).1, fun j hj => ?_⟩
    cases j with
    | zero => exact hfirst w (Nat.le_refl w)
    | succ j => exact (hslide j (by omega)).2

theorem maxSumSubarray_of_neg {k : Int} (hn : nums.length < 2 ^ 63) (hk : k < 0) (hk' : -2 ^ 31 ≤ k) :
    maxSumSubarray nums k = some 0 := by
  have hstart := start_of_neg hk hk'
  rw [maxSumSubarray, show k.toNat = 0 by omega, List.drop_eq_nil_of_le (by rw [List.length_range]; omega)]
  rfl

/-- The result is the greatest sum of `k` elements in a row, where there are that many and nothing overflows. For a
negative `k` it is that of no elements. -/
theorem maxSumSubarray_eq_some_iff (nums : List Int) (hn : nums.length < 2 ^ 63) (k : Int) (hk : -2 ^ 31 ≤ k)
    (hk' : k < 2 ^ 31) (m : Int) :
    maxSumSubarray nums k = some m ↔
      k.toNat ≤ nums.length ∧ Fits nums k.toNat ∧ IsGreatest {x | IsWindowSum nums k.toNat x} m := by
  rcases Int.lt_or_le k 0 with hneg | hpos
  · have hzero : IsGreatest {x | IsWindowSum nums 0 x} 0 := by
      refine ⟨⟨0, by omega, rfl⟩, ?_⟩
      rintro x ⟨j, hj, rfl⟩
      exact Int.le_of_eq (by simp [windowSum])
    rw [maxSumSubarray_of_neg hn hneg hk, show k.toNat = 0 by omega, Option.some_inj]
    exact ⟨fun h => ⟨Nat.zero_le _, fits_zero nums, h ▸ hzero⟩, fun h => hzero.unique h.2.2⟩
  · have hstart := start_of hpos hk'
    rw [maxSumSubarray, Option.bind_eq_bind, Option.bind_eq_some_iff, hstart]
    constructor
    · rintro ⟨x, hfirst, hrest⟩
      obtain ⟨⟨hw, hfit⟩, rfl⟩ := firstSum_iff.mp hfirst
      obtain ⟨t, hslide, hm⟩ := Option.bind_eq_some_iff.mp hrest
      obtain ⟨hall, rfl⟩ := (slide_iff hstart hw).mp hslide
      exact ⟨hw, (fits_iff hw).mpr ⟨hfit, hall⟩, (isGreatest_iff hw).mpr (Option.some_inj.mp hm)⟩
    · rintro ⟨hw, hfit, hm⟩
      obtain ⟨hfirst, hall⟩ := (fits_iff hw).mp hfit
      exact ⟨_, firstSum_iff.mpr ⟨⟨hw, hfirst⟩, rfl⟩,
        Option.bind_eq_some_iff.mpr ⟨_, (slide_iff hstart hw).mpr ⟨hall, rfl⟩,
        Option.some_inj.mpr ((isGreatest_iff hw).mp hm)⟩⟩

theorem maxSumSubarray_eq_some_three : maxSumSubarray [2, 1, 5, 1, 3, 2] 3 = some 9 :=
  (maxSumSubarray_eq_some_iff [2, 1, 5, 1, 3, 2] (by decide) 3 (by decide) (by decide) 9).mpr
    ⟨by decide, (fits_iff (by decide)).mpr ⟨by decide, by decide⟩, (isGreatest_iff (by decide)).mpr (by decide)⟩

end Playground.SlidingWindow
