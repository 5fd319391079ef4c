import Mathlib.Order.Bounds.Basic
import Mathlib.Algebra.Order.Ring.Int
import Playground.TwoPointers

/-!
# The greatest area between two sides

Of the pairs that have a side that has been left, none has a greater area than
has been seen: it is at most as wide as the pair that was compared when that
side moved, and at most as high.
-/

namespace Playground.TwoPointers

section
variable {height : List Int} {s : Ends} {x y : Int}

theorem area_le {w w' m : Int} (hm : 0 ≤ m) (h : w' * x ≤ m) (hw : 0 ≤ w) (hle : w ≤ w') (y : Int) :
    w * min x y ≤ m := by
  have hmin : w * min x y ≤ w * x := Int.mul_le_mul_of_nonneg_left (min_le_left x y) hw
  by_cases hx : 0 ≤ x
  · have hwider : w * x ≤ w' * x := Int.mul_le_mul_of_nonneg_right hle hx
    omega
  · have hneg : w * x ≤ 0 := Int.mul_nonpos_of_nonneg_of_nonpos hw (by omega)
    omega

structure Inspected (height : List Int) (s : Ends) : Prop where
  left : 0 ≤ s.left
  right : s.right < height.length
  nonneg : 0 ≤ s.maxArea
  attained : s.maxArea = 0 ∨ Container height s.maxArea
  skipped : ∀ (i j : Nat) (x y : Int), i < j → height[i]? = some x → height[j]? = some y →
    s.left ≤ i ∧ j ≤ s.right ∨ ((j : Int) - i) * min x y ≤ s.maxArea

theorem inspected_init : Inspected height { right := height.length - 1 } := by
  refine ⟨Int.le_refl 0, by simp only; omega, Int.le_refl 0, .inl rfl, ?_⟩
  intro i j x y _ _ hy
  have hj := (List.getElem?_eq_some_iff.mp hy).1
  exact .inl ⟨by simp, by simp only; omega⟩

theorem areaRound_eq (hx : Vec.at? height s.left = some x) (hy : Vec.at? height s.right = some y) :
    areaRound height s =
      if x < y then some { s with left := s.left + 1, maxArea := max s.maxArea ((s.right - s.left) * min x y) }
      else some { s with right := s.right - 1, maxArea := max s.maxArea ((s.right - s.left) * min x y) } := by
  simp [areaRound, hx, hy]

theorem Inspected.skip (h : Inspected height s) {s' : Ends} (harea : s.maxArea ≤ s'.maxArea)
    (hleave : ∀ (i j : Nat) (x y : Int), i < j → height[i]? = some x → height[j]? = some y → s.left ≤ i →
      j ≤ s.right → s'.left ≤ i ∧ j ≤ s'.right ∨ ((j : Int) - i) * min x y ≤ s'.maxArea)
    (i j : Nat) (x y : Int) (hij : i < j) (hi : height[i]? = some x) (hj : height[j]? = some y) :
    s'.left ≤ i ∧ j ≤ s'.right ∨ ((j : Int) - i) * min x y ≤ s'.maxArea := by
  rcases h.skipped i j x y hij hi hj with ⟨hli, hjr⟩ | hle
  · exact hleave i j x y hij hi hj hli hjr
  · exact .inr (hle.trans harea)

theorem inspected_round (h : Inspected height s) (hlt : s.left < s.right) :
    ∃ s', areaRound height s = some s' ∧ Inspected height s' ∧ s'.right - s'.left < s.right - s.left := by
  obtain ⟨left, right, area⟩ := s
  have hright := h.right
  obtain ⟨l, rfl⟩ := Int.eq_ofNat_of_zero_le h.left
  obtain ⟨r, rfl⟩ := Int.eq_ofNat_of_zero_le (Int.le_trans h.left (Int.le_of_lt hlt))
  simp only at hright hlt
  obtain ⟨x, hx⟩ : ∃ x, height[l]? = some x := ⟨_, List.getElem?_eq_getElem (by omega)⟩
  obtain ⟨y, hy⟩ : ∃ y, height[r]? = some y := ⟨_, List.getElem?_eq_getElem (by omega)⟩
  have harea : area ≤ max area ((r - l) * min x y) := Int.le_max_left _ _
  have hnonneg : 0 ≤ max area ((r - l) * min x y) := Int.le_trans h.nonneg harea
  have hattained : max area ((r - l) * min x y) = 0 ∨ Container height (max area ((r - l) * min x y)) := by
    rcases max_choice area ((r - l) * min x y) with heq | heq
    · rw [heq]
      exact h.attained
    · exact .inr ⟨l, r, x, y, by omega, hx, hy, heq⟩
  rw [areaRound_eq (by simpa using hx) (by simpa using hy)]
  by_cases hxy : x < y
  · have hcompared : ((r : Int) - l) * x ≤ max area ((r - l) * min x y) := by
      rw [min_eq_left hxy.le]
      exact Int.le_max_right _ _
    refine ⟨_, if_pos hxy, ⟨by simp only; omega, hright, hnonneg, hattained, h.skip harea ?_⟩, by simp only; omega⟩
    intro i j x' y' hij hi hj hli hjr
    simp only at hli hjr ⊢
    by_cases hil : i = l
    · subst hil
      obtain rfl := Option.some_inj.mp (hx.symm.trans hi)
      exact .inr (area_le hnonneg hcompared (by omega) (by omega) y')
    · exact .inl ⟨by omega, hjr⟩
  · have hcompared : ((r : Int) - l) * y ≤ max area ((r - l) * min x y) := by
      rw [min_eq_right (not_lt.mp hxy)]
      exact Int.le_max_right _ _
    refine ⟨_, if_neg hxy, ⟨h.left, by simp only; omega, hnonneg, hattained, h.skip harea ?_⟩, by simp only; omega⟩
    intro i j x' y' hij hi hj hli hjr
    simp only at hli hjr ⊢
    by_cases hjr' : j = r
    · subst hjr'
      obtain rfl := Option.some_inj.mp (hy.symm.trans hj)
      rw [min_comm x']
      exact .inr (area_le hnonneg hcompared (by omega) (by omega) x')
    · exact .inl ⟨hli, by omega⟩

theorem maxArea_run {fuel : Nat} (hfuel : height.length < fuel) :
    ∃ s, Loop.run (areaBody height) fuel { right := height.length - 1 } = some s ∧ Inspected height s ∧
      ¬ s.left < s.right := by
  refine Loop.run_while (fun s => (s.right - s.left).toNat) ?_ inspected_init (by simp only; omega)
  intro s h hlt
  obtain ⟨s', hround, h', hmeasure⟩ := inspected_round h hlt
  exact ⟨s', hround, h', by omega⟩

end

/-- **The greatest area between two sides**, and `0` if there is none or all are negative. -/
theorem maxArea_greatest (height : List Int) (hlen : height.length < 2 ^ 31) (fuel : Nat)
    (hfuel : height.length < fuel) :
    ∃ area, maxArea height fuel = some area ∧
      ((∃ a, Container height a ∧ 0 ≤ a) → IsGreatest { a | Container height a } area) ∧
      ((∀ a, Container height a → a < 0) → area = 0) := by
  obtain ⟨s, hrun, h, hend⟩ := maxArea_run hfuel
  have hbound : ∀ a, Container height a → a ≤ s.maxArea := by
    rintro a ⟨i, j, x, y, hij, hi, hj, rfl⟩
    rcases h.skipped i j x y hij hi hj with hin | hle
    · omega
    · exact hle
  have hright : CInt.fit (CInt.ofSize height.length - 1) = some ((height.length : Int) - 1) := by
    rw [CInt.ofSize_of_lt hlen]
    exact CInt.fit_of (by omega) (by omega)
  refine ⟨s.maxArea, by simp [maxArea, hright, hrun], ?_, ?_⟩
  · rintro ⟨a, ha, hpos⟩
    refine ⟨?_, hbound⟩
    rcases h.attained with hzero | hattained
    · -- An area that is not negative is `0` as well.
      have heq : a = s.maxArea := Int.le_antisymm (hbound a ha) (hzero ▸ hpos)
      exact heq ▸ ha
    · exact hattained
  · intro hneg
    rcases h.attained with hzero | hattained
    · exact hzero
    · have hlt := hneg _ hattained
      have hge := h.nonneg
      omega

example : maxArea [1, 8, 6, 2, 5, 4, 8, 3, 7] 10 = some 49 := by decide

theorem maxArea_greatest_ties : ∃ area, maxArea [3, -1, 3] 4 = some area ∧
    ((∃ a, Container [3, -1, 3] a ∧ 0 ≤ a) → IsGreatest { a | Container [3, -1, 3] a } area) ∧
    ((∀ a, Container [3, -1, 3] a → a < 0) → area = 0) :=
  maxArea_greatest [3, -1, 3] (by decide) 4 (by decide)

theorem maxArea_of_neg {height : List Int} {right : Int}
    (hright : CInt.fit (CInt.ofSize height.length - 1) = some right) (hneg : right < 0) {fuel : Nat} :
    maxArea height (fuel + 1) = some 0 := by
  have hexit : areaBody height { right := right } = .exit := by
    rw [areaBody, if_neg (by simp only; omega)]
  rw [maxArea, hright, Option.bind_eq_bind, Option.bind_some, Loop.run_exit hexit]
  rfl

/-- Of `2 ^ 31 + 1` heights the last index is a negative `int`, and no two sides are compared. -/
theorem maxArea_long : ¬ ∀ (height : List Int) (fuel : Nat), height.length < fuel →
    ∃ area, maxArea height fuel = some area ∧
      ((∃ a, Container height a ∧ 0 ≤ a) → IsGreatest { a | Container height a } area) := by
  intro h
  obtain ⟨k, hk⟩ : ∃ k : Nat, k = 2 ^ 31 + 1 := ⟨_, rfl⟩
  obtain ⟨area, hrun, hgreatest⟩ := h (List.replicate k 1) (k + 1) (by simp)
  have hsize : CInt.ofSize (List.replicate k (1 : Int)).length = (k : Int) - 2 ^ 32 := by
    rw [List.length_replicate, CInt.ofSize_of_le (by omega) (by omega)]
  have hright : CInt.fit (CInt.ofSize (List.replicate k (1 : Int)).length - 1) = some ((k : Int) - 2 ^ 32 - 1) := by
    rw [hsize]
    exact CInt.fit_of (by omega) (by omega)
  obtain rfl := Option.some.inj ((maxArea_of_neg hright (by omega)).symm.trans hrun)
  have hpair : Container (List.replicate k 1) 1 :=
    ⟨0, 1, 1, 1, Nat.zero_lt_one, List.getElem?_replicate_of_lt (by omega),
      List.getElem?_replicate_of_lt (by omega), by decide⟩
  exact absurd ((hgreatest ⟨1, hpair, by decide⟩).2 hpair) (by decide)

end Playground.TwoPointers
