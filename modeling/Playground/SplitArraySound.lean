import Playground.BinarySearchSound
import Playground.Lib.Cutting

/-!
# The least largest sum

`canSplit` counts the cuts of a list into parts within its bound, and the
search finds the least bound that takes few enough.
-/

namespace Playground.BinarySearchOnAnswer

open Cutting (Cut Largest cuts cuts_of_lt cuts_of_le)

section
variable {fit : Int → Option Int} {top : Int} (hfit : Covers fit top)

include hfit

theorem accumulate_eq {nums : List Int} (hnums : ∀ x ∈ nums, 0 ≤ x) {sum : Int} (hsum : 0 ≤ sum)
    (htop : sum + nums.sum ≤ top) : nums.foldlM (fun sum num => fit (sum + num)) sum = some (sum + nums.sum) := by
  induction nums generalizing sum with
  | nil => simp
  | cons x nums ih =>
    obtain ⟨hx, hnums⟩ := List.forall_mem_cons.mp hnums
    have hrest := List.sum_nonneg hnums
    rw [List.sum_cons, ← Int.add_assoc] at htop ⊢
    rw [List.foldlM_cons, hfit _ (by omega) (by omega)]
    exact ih hnums (by omega) htop

/-- The number of parts: once there is a second one, no more than the sum of what they hold. -/
theorem canSplitFrom_eq {m maxSum : Int} {nums : List Int} (hnums : ∀ x ∈ nums, 0 ≤ x ∧ x ≤ maxSum)
    {splits currentSum : Int} (hpos : 0 ≤ splits) (hm : splits ≤ m) (hcurrent : 0 ≤ currentSum)
    (hwithin : currentSum ≤ maxSum) (htop : currentSum + nums.sum ≤ top)
    (hsplits : splits ≤ 1 ∨ splits + nums.sum ≤ top) :
    canSplitFrom fit m maxSum nums splits currentSum =
      some (decide (splits + cuts maxSum currentSum nums ≤ m)) := by
  induction nums generalizing splits currentSum with
  | nil => simpa [canSplitFrom, cuts] using hm
  | cons x nums ih =>
    obtain ⟨⟨hx, hx'⟩, hnums⟩ := List.forall_mem_cons.mp hnums
    have hrest := List.sum_nonneg fun y hy => (hnums y hy).1
    rw [List.sum_cons] at htop hsplits
    have hsum : fit (currentSum + x) = some (currentSum + x) := hfit _ (by omega) (by omega)
    rw [canSplitFrom, hsum, Option.bind_eq_bind, Option.bind_some]
    by_cases hlt : maxSum < currentSum + x
    · have hsucc : fit (splits + 1) = some (splits + 1) := hfit _ (by omega) (by omega)
      rw [if_pos hlt, hsucc, Option.bind_some, cuts_of_lt hlt]
      by_cases hmore : splits + 1 > m
      · rw [if_pos hmore, decide_eq_false (by omega)]
      · rw [if_neg hmore, ih hnums (by omega) (by omega) hx hx' (by omega) (by omega), Option.some_inj,
          decide_eq_decide]
        omega
    · rw [if_neg hlt, cuts_of_le (Int.not_lt.mp hlt)]
      exact ih hnums hpos hm (by omega) (by omega) (by omega) (by omega)

theorem canSplit_eq {m : Nat} {maxSum : Int} {nums : List Int} (hnums : ∀ x ∈ nums, 0 ≤ x) (hm : 0 < m)
    (hmax : ∀ x ∈ nums, x ≤ maxSum) (h0 : 0 ≤ maxSum) (htop : nums.sum ≤ top) :
    canSplit fit nums m maxSum = some (decide (cuts maxSum 0 nums < m)) := by
  rw [canSplit, canSplitFrom_eq hfit (fun x hx => ⟨hnums x hx, hmax x hx⟩) (by omega) (by omega) (Int.le_refl 0) h0
    (by omega) (.inl (Int.le_refl 1)), Option.some_inj, decide_eq_decide]
  omega

end

theorem cuts_anti {nums : List Int} (hnums : ∀ x ∈ nums, 0 ≤ x) {m : Nat} (hm : 0 < m) (hlen : m ≤ nums.length)
    {a b : Int} (ha : ∀ x ∈ nums, x ≤ a) (hab : a ≤ b) (h : cuts a 0 nums < m) : cuts b 0 nums < m := by
  obtain ⟨parts, hcut, hwithin, hparts⟩ := (Cutting.cuts_lt_iff hnums ha hm hlen).mp h
  refine (Cutting.cuts_lt_iff hnums (fun x hx => Int.le_trans (ha x hx) hab) hm hlen).mpr ⟨parts, hcut, ?_, hparts⟩
  exact fun p hp => Int.le_trans (hwithin p hp) hab

theorem cuts_sum {nums : List Int} (hnums : ∀ x ∈ nums, 0 ≤ x) : cuts nums.sum 0 nums = 0 := by
  have happend : cuts nums.sum 0 (nums ++ []) = cuts nums.sum (0 + nums.sum) [] :=
    Cutting.cuts_append hnums (by rw [Int.zero_add])
  simpa [cuts] using happend

/-- **The least sum of the largest of `m` parts.** -/
theorem splitArray_least (nums : List Int) (hnums : ∀ x ∈ nums, 0 ≤ x) (m : Nat) (hm : 1 ≤ m)
    (hlen : m ≤ nums.length) (fuel : Nat) (hfuel : nums.sum < fuel) : ∃ v, splitArray some fuel nums m = some v ∧
      IsLeast { v | ∃ parts, Cut nums parts ∧ parts.length = m ∧ Largest parts v } v := by
  have hne : nums ≠ [] := List.ne_nil_of_length_pos (Nat.lt_of_lt_of_le hm hlen)
  obtain ⟨k, hk, hmem, hmax⟩ := exists_max hne
  have hle : k ≤ nums.sum := List.single_le_sum hnums k hmem
  have hpos := hnums k hmem
  have hfit := covers_some nums.sum
  have htotal := accumulate_eq hfit hnums (Int.le_refl 0) (by omega)
  rw [Int.zero_add] at htotal
  have hsearch := search_bisects hfit (canSplit some nums m) hpos (Int.le_refl nums.sum)
  obtain ⟨v, hrun, hleast⟩ := hsearch.least (P := fun b => cuts b 0 nums < m) (n := fuel)
    (fun b hb _ => canSplit_eq hfit hnums hm (fun x hx => Int.le_trans (hmax x hx) hb)
      (Int.le_trans hpos hb) (Int.le_refl _))
    (fun a b ha hab h => cuts_anti hnums hm hlen (fun x hx => Int.le_trans (hmax x hx) ha) hab h) hle
    (by rw [cuts_sum hnums]; exact hm) (by omega)
  refine ⟨v, by simp [splitArray, hk, htotal, hrun], Cutting.isLeast_largest hnums hm hlen ?_⟩
  have hbounds : ∀ b, k ≤ b ↔ ∀ x ∈ nums, x ≤ b := fun b =>
    ⟨fun h x hx => Int.le_trans (hmax x hx) h, fun h => h k hmem⟩
  simpa only [hbounds] using hleast

example : splitArray some 33 [7, 2, 5, 10, 8] 2 = some 18 := by decide

theorem splitArray_least_two : ∃ v, splitArray some 33 [7, 2, 5, 10, 8] 2 = some v ∧
    IsLeast { v | ∃ parts, Cut [7, 2, 5, 10, 8] parts ∧ parts.length = 2 ∧ Largest parts v } v :=
  splitArray_least [7, 2, 5, 10, 8] (by decide) 2 (by decide) (by decide) 33 (by decide)

end Playground.BinarySearchOnAnswer
