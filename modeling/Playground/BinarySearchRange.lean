import Playground.SplitArraySound

/-!
# Where the searches stay in range

Both functions are run in 32 bits here: they have a result when no operation
overflows. The midpoint never does. A sum does where the total does, and a
speed that is tried where it overflows together with the largest pile; which
speeds are tried depends on those before.
-/

namespace Playground.BinarySearchOnAnswer

open Bisect (Bisects)

/-- The largest pile `k` and the speeds `k - k / 2`, `k - k / 4`, ..., which are tried as long as none is
fast enough. -/
def InReach (piles : List Int) (h : Int) : Prop := ∀ k, piles.max? = some k → ∀ i, 0 < i → 2 ^ i ≤ k →
  2 ^ 31 ≤ k + (k - k / 2 ^ i) → ∃ j, 0 < j ∧ j < i ∧ hours piles (k - k / 2 ^ j) ≤ h

theorem accumulate_none {nums : List Int} (hnums : ∀ x ∈ nums, 0 ≤ x) {sum : Int} (hsum : 0 ≤ sum)
    (hlt : sum < 2 ^ 31) (htop : 2 ^ 31 ≤ sum + nums.sum) :
    nums.foldlM (fun sum num => CInt.fit (sum + num)) sum = none := by
  induction nums generalizing sum with
  | nil =>
    rw [List.sum_nil] at htop
    omega
  | cons x nums ih =>
    obtain ⟨hx, hnums⟩ := List.forall_mem_cons.mp hnums
    rw [List.sum_cons, ← Int.add_assoc] at htop
    rw [List.foldlM_cons]
    by_cases hfits : sum + x < 2 ^ 31
    · rw [CInt.fit_of (by omega) hfits]
      exact ih hnums (by omega) hfits htop
    · rw [CInt.fit_of_le (by omega)]
      rfl

theorem exists_run_iff {piles : List Int} {k : Int} (hk : piles.max? = some k) (h : Int) :
    (∃ fuel speed, minEatingSpeed CInt.fit fuel piles h = some speed) ↔
      Loop.Returns (searchBody CInt.fit (canFinish CInt.fit piles h)) (1, k) := by
  constructor
  · rintro ⟨fuel, speed, hrun⟩
    cases hloop : Loop.run (searchBody CInt.fit (canFinish CInt.fit piles h)) fuel (1, k) with
    | none => simp [minEatingSpeed, hk, hloop] at hrun
    | some s => exact ⟨fuel, s, hloop⟩
  · rintro ⟨fuel, s, hloop⟩
    exact ⟨fuel, s.1, by simp [minEatingSpeed, hk, hloop]⟩

section
variable {v : List Int} (hv : ∀ x ∈ v, 0 ≤ x ∧ x < 2 ^ 31)

include hv

theorem canFinish_int {k : Int} (hk : v.max? = some k) (h : Int) {speed : Int} (hspeed : 0 < speed) :
    canFinish CInt.fit v h speed =
      if k + speed ≤ 2 ^ 31 - 1 then some (decide (hours v speed ≤ h)) else none := by
  obtain ⟨hmem, hmax⟩ := List.max?_eq_some_iff.mp hk
  by_cases hsafe : k + speed ≤ 2 ^ 31 - 1
  · rw [if_pos hsafe]
    exact canFinish_eq covers_fit (fun p hp => ⟨(hv p hp).1, by have := hmax p hp; omega⟩) hspeed
  · have hnone : ∀ hoursNeeded, addHours CInt.fit speed hoursNeeded k = none := by
      intro hoursNeeded
      rw [addHours, CInt.fit_of_le (by omega)]
      rfl
    rw [if_neg hsafe, canFinish, Loop.forEach_none hmem hnone]
    rfl

theorem minEatingSpeed_returns (hne : v ≠ []) (h : Int) :
    (∃ fuel speed, minEatingSpeed CInt.fit fuel v h = some speed) ↔ InReach v h := by
  obtain ⟨k, hk, hmem, -⟩ := exists_max hne
  have hrange := hv k hmem
  have hreach : InReach v h ↔ ∀ i, 0 < i → 2 ^ i ≤ k → 2 ^ 31 ≤ k + (k - k / 2 ^ i) →
      ∃ j, 0 < j ∧ j < i ∧ hours v (k - k / 2 ^ j) ≤ h := by
    constructor
    · exact fun hall => hall k hk
    · intro hall l hl
      obtain rfl := Option.some_inj.mp (hk.symm.trans hl)
      exact hall
  rw [hreach, exists_run_iff hk]
  by_cases hpos : 1 ≤ k
  · have hsearch := search_bisects covers_fit (canFinish CInt.fit v h) Int.one_nonneg (show k ≤ 2 ^ 31 - 1 by omega)
    have htest : ∀ speed, 1 ≤ speed → speed < k → canFinish CInt.fit v h speed =
        if k + speed ≤ 2 ^ 31 - 1 then some (decide (hours v speed ≤ h)) else none :=
      fun speed hs _ => canFinish_int hv hk h hs
    have hup : ∀ i, Bisect.up 1 k i = k - k / 2 ^ i := fun i => by rw [Bisect.up, Int.sub_add_cancel]
    have hreturns := Bisect.returns_iff hsearch htest (fun a b hab hb => by omega) hpos
    simp only [hup, Int.sub_add_cancel] at hreturns
    rw [hreturns]
    constructor
    · exact fun hall i h0 hi hover => hall i h0 hi (by omega)
    · exact fun hall i h0 hi hover => hall i h0 hi (by omega)
  · refine iff_of_true (Loop.returns_exit (by simp [searchBody]; omega)) fun i _ hi => ?_
    have hpow : (0 : Int) < 2 ^ i := by positivity
    omega

theorem splitArray_returns (hne : v ≠ []) {m : Int} (hm : 1 ≤ m) :
    (∃ fuel b, splitArray CInt.fit fuel v m = some b) ↔ v.sum < 2 ^ 31 := by
  have hnums : ∀ x ∈ v, 0 ≤ x := fun x hx => (hv x hx).1
  obtain ⟨k, hk, hmem, hmax⟩ := exists_max hne
  have hpos := hnums k hmem
  have hle : k ≤ v.sum := List.single_le_sum hnums k hmem
  constructor
  · rintro ⟨fuel, b, hrun⟩
    by_contra hlarge
    have hnone := accumulate_none hnums (Int.le_refl 0) (by omega) (by omega)
    simp [splitArray, hk, hnone] at hrun
  · intro hlt
    obtain ⟨m, rfl⟩ := Int.eq_ofNat_of_zero_le (Int.le_trans Int.one_nonneg hm)
    have htotal := accumulate_eq covers_fit hnums (Int.le_refl 0) (by omega)
    rw [Int.zero_add] at htotal
    have hsearch := search_bisects covers_fit (canSplit CInt.fit v m) hpos (show v.sum ≤ 2 ^ 31 - 1 by omega)
    have htest : ∀ b, k ≤ b → b < v.sum → canSplit CInt.fit v m b ≠ none := by
      intro b hb _
      rw [canSplit_eq covers_fit hnums (by omega) (fun x hx => Int.le_trans (hmax x hx) hb) (Int.le_trans hpos hb)
        (by omega)]
      exact Option.some_ne_none _
    obtain ⟨fuel, s, hrun⟩ := hsearch.returns htest hle
    exact ⟨fuel, s.1, by simp [splitArray, hk, htotal, hrun]⟩

end

/-- **Both functions stay in range** if and only if the speeds that are tried are within reach of the largest
pile and the total fits. -/
theorem inRange_iff (v : List Int) (hne : v ≠ []) (hv : ∀ x ∈ v, 0 ≤ x ∧ x < 2 ^ 31) (h m : Int) (hm : 1 ≤ m) :
    ((∃ fuel speed, minEatingSpeed CInt.fit fuel v h = some speed) ∧
      ∃ fuel b, splitArray CInt.fit fuel v m = some b) ↔ InReach v h ∧ v.sum < 2 ^ 31 := by
  rw [splitArray_returns hv hne hm, minEatingSpeed_returns hv hne h]

theorem inRange_iff_small : ((∃ fuel speed, minEatingSpeed CInt.fit fuel [3, 6, 7, 11] 8 = some speed) ∧
    ∃ fuel b, splitArray CInt.fit fuel [3, 6, 7, 11] 2 = some b) ↔
      InReach [3, 6, 7, 11] 8 ∧ ([3, 6, 7, 11] : List Int).sum < 2 ^ 31 :=
  inRange_iff [3, 6, 7, 11] (by decide) (by decide) 8 2 (by decide)

/-- The first speed tried for a pile of `2 ^ 31 - 1` is `2 ^ 30`. -/
theorem minEatingSpeed_overflow : ¬ ∀ v : List Int, v ≠ [] → (∀ x ∈ v, 0 ≤ x ∧ x < 2 ^ 31) → ∀ h m : Int, 1 ≤ h →
    1 ≤ m → (∃ fuel speed, minEatingSpeed CInt.fit fuel v h = some speed) ∧
      ∃ fuel b, splitArray CInt.fit fuel v m = some b := by
  intro hall
  have hv : ∀ x ∈ [(2 ^ 31 - 1 : Int)], 0 ≤ x ∧ x < 2 ^ 31 := by decide
  obtain ⟨⟨fuel, speed, hrun⟩, -⟩ := hall [2 ^ 31 - 1] (by decide) hv 1 1 (by decide) (by decide)
  obtain ⟨j, hj, hj1, -⟩ := (minEatingSpeed_returns hv (by decide) 1).mp ⟨fuel, speed, hrun⟩ _ rfl 1 (by decide)
    (by decide) (by decide)
  omega

end Playground.BinarySearchOnAnswer
