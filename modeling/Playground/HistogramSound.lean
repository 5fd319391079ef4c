import Mathlib.Data.Int.Order.Basic
import Mathlib.Order.MinMax
import Playground.Lib.Loop
import Playground.Lib.MonotoneStack
import Playground.MonotonicStack

/-!
# The largest rectangle is that of a popped bar

A bar is popped by the first lower one after it, and the neighbour below it on
the stack is the last one before it that is not higher. The leftmost of the
lowest bars of a rectangle is at least as wide as the rectangle.
-/

namespace Playground.MonotonicStack

open MonotoneStack Vec
open scoped List

variable {heights : List Int} {i j k l e left : Nat} {maxArea : Int}

/-- Bar `k` and the range around it that is popped with it, without its end `e`. -/
structure Bar (heights : List Int) (k left e : Nat) : Prop where
  le : left ≤ k
  higher : ∀ j < k, left ≤ j → seq heights k < seq heights j
  border : ∀ b, b + 1 = left → seq heights b ≤ seq heights k
  next : Next (· > ·) (seq heights) k e

def Bar.area (heights : List Int) (k left e : Nat) : Int := seq heights k * ((e : Int) - left)

theorem Bar.left_unique {left' e' : Nat} (h : Bar heights k left e) (h' : Bar heights k left' e') :
    left = left' := by
  rcases Nat.lt_trichotomy left left' with hlt | heq | hlt
  · obtain ⟨b, rfl⟩ := Nat.exists_eq_add_one.mpr (Nat.zero_lt_of_lt hlt)
    have := h.higher b h'.le (Nat.le_of_lt_succ hlt)
    have := h'.border b rfl
    omega
  · exact heq
  · obtain ⟨b, rfl⟩ := Nat.exists_eq_add_one.mpr (Nat.zero_lt_of_lt hlt)
    have := h'.higher b h.le (Nat.le_of_lt_succ hlt)
    have := h.border b rfl
    omega

/-! ## What is popped -/

/-- Where the range of the bar above `stk` begins. -/
def leftOf : List Nat → Nat
  | [] => 0
  | top :: _ => top + 1

theorem width_eq (e : Nat) (stk : List Nat) : width e stk = (e : Int) - leftOf stk := by
  cases stk with
  | nil => simp [width, leftOf]
  | cons top stk =>
    simp [width, leftOf]
    omega

theorem bar_of_popped {stk : List Nat} (h : k :: stk <:+ stack (· > ·) (seq heights) e)
    (hnext : Next (· > ·) (seq heights) k e) : Bar heights k (leftOf stk) e := by
  obtain ⟨hbetween, hborder⟩ := between negTrans_gt (fun x y z hxy hyz => gt_trans hxy hyz) h
  cases stk with
  | nil => exact ⟨Nat.zero_le k, fun j hj _ => hbetween j hj (by simp), by simp [leftOf], hnext⟩
  | cons top stk =>
    obtain ⟨hlt, hle⟩ := hborder top rfl
    refine ⟨hlt, ?_, ?_, hnext⟩
    · intro j hj hleft
      apply hbetween j hj
      rintro b ⟨⟩
      exact hleft
    · rintro b ⟨⟩
      exact Int.not_lt.mp hle

theorem popHigher_eq (maxArea : Int) (stk : List Nat) (hstk : ∀ k ∈ stk, k < heights.length)
    (hsorted : stk.Pairwise (· > ·)) :
    ∃ maxArea', popHigher heights e (seq heights e) stk maxArea =
        some (stk.dropWhile (fun k => seq heights k > seq heights e), maxArea') ∧ maxArea ≤ maxArea' ∧
      (∀ k rest, k :: rest <:+ stk → (k ∈ stk.takeWhile fun k => seq heights k > seq heights e) →
        Bar.area heights k (leftOf rest) e ≤ maxArea') ∧
      (maxArea' = maxArea ∨ ∃ k rest, k :: rest <:+ stk ∧
        (k ∈ stk.takeWhile fun k => seq heights k > seq heights e) ∧
          maxArea' = Bar.area heights k (leftOf rest) e) := by
  induction stk generalizing maxArea with
  | nil => exact ⟨maxArea, by simp [popHigher], Int.le_refl _, by simp, .inl rfl⟩
  | cons top stk ih =>
    obtain ⟨htop, hsorted'⟩ := List.pairwise_cons.mp hsorted
    have hlt := hstk top List.mem_cons_self
    by_cases hgt : seq heights top > seq heights e
    · obtain ⟨maxArea', hpop, hle, hareas, hmax⟩ := ih (max maxArea (Bar.area heights top (leftOf stk) e))
        (fun k hk => hstk k (List.mem_cons_of_mem top hk)) hsorted'
      refine ⟨maxArea', ?_, le_trans (le_max_left _ _) hle, ?_, ?_⟩
      · rw [List.dropWhile_cons_of_pos (by simpa using hgt), ← hpop]
        simp [popHigher, getElem?_seq hlt, hgt, width_eq, Bar.area]
      · intro k rest hsuffix hk
        rw [List.takeWhile_cons_of_pos (by simpa using hgt)] at hk
        rcases List.suffix_cons_iff.mp hsuffix with heq | hsuffix
        · cases heq
          exact le_trans (le_max_right _ _) hle
        · have hmem : k ∈ stk := hsuffix.subset List.mem_cons_self
          rcases List.mem_cons.mp hk with rfl | hk
          · exact absurd (htop k hmem) (Nat.lt_irrefl k)
          · exact hareas k rest hsuffix hk
      · rw [List.takeWhile_cons_of_pos (by simpa using hgt)]
        rcases hmax with heq | ⟨k, rest, hsuffix, hk, heq⟩
        · rcases max_choice maxArea (Bar.area heights top (leftOf stk) e) with hc | hc
          · exact .inl (heq.trans hc)
          · exact .inr ⟨top, stk, List.suffix_refl _, List.mem_cons_self, heq.trans hc⟩
        · exact .inr ⟨k, rest, hsuffix.trans (List.suffix_cons top stk), List.mem_cons_of_mem top hk, heq⟩
    · refine ⟨maxArea, ?_, Int.le_refl _, ?_, .inl rfl⟩
      · simp [popHigher, getElem?_seq hlt, hgt]
      · simp [hgt]

theorem exists_bar (h : Next (· > ·) (seq heights) k e) : ∃ rest, k :: rest <:+ stack (· > ·) (seq heights) e ∧
    Bar heights k (leftOf rest) e := by
  have hmem : k ∈ stack (· > ·) (seq heights) e := (mem_stack negTrans_gt).mpr ⟨h.lt, h.first⟩
  obtain ⟨above, rest, hsplit⟩ := List.append_of_mem hmem
  have hsuffix : k :: rest <:+ stack (· > ·) (seq heights) e := ⟨above, hsplit.symm⟩
  exact ⟨rest, hsuffix, bar_of_popped hsuffix h⟩

/-- The areas of the bars that have been popped, and their maximum. -/
structure Covered (heights : List Int) (i : Nat) (maxArea : Int) : Prop where
  nonneg : 0 ≤ maxArea
  bars : ∀ k left e, e < i → Bar heights k left e → Bar.area heights k left e ≤ maxArea
  attained : maxArea = 0 ∨ ∃ k left e, e < i ∧ Bar heights k left e ∧ maxArea = Bar.area heights k left e

theorem Covered.round (hi : i ≤ heights.length) (h : Covered heights i maxArea) :
    ∃ maxArea', histogramRound heights heights.length (stack (· > ·) (seq heights) i, maxArea) i =
      some (stack (· > ·) (seq heights) (i + 1), maxArea') ∧ Covered heights (i + 1) maxArea' := by
  obtain ⟨maxArea', hpop, hle, hareas, hmax⟩ := popHigher_eq (e := i) maxArea
    (stack (· > ·) (seq heights) i) (fun k hk => Nat.lt_of_lt_of_le (lt_of_mem_stack hk) hi) (pairwise_stack i)
  have hcurrent : currentHeight heights heights.length i = some (seq heights i) := by
    unfold currentHeight
    by_cases hend : i = heights.length
    · simp [hend, seq_length]
    · rw [if_neg (by omega), getElem?_seq (by omega)]
  refine ⟨maxArea', ?_, le_trans h.nonneg hle, ?_, ?_⟩
  · simp only [histogramRound, hcurrent, hpop, stack, Option.bind_eq_bind, Option.bind_some]
  · intro k left e he hbar
    rcases Nat.lt_succ_iff_lt_or_eq.mp he with he | rfl
    · exact le_trans (h.bars k left e he hbar) hle
    · obtain ⟨rest, hsuffix, hbar'⟩ := exists_bar hbar.next
      rw [hbar.left_unique hbar']
      exact hareas k rest hsuffix ((mem_popped negTrans_gt).mpr hbar.next)
  · rcases hmax with rfl | ⟨k, rest, hsuffix, hk, rfl⟩
    · rcases h.attained with hzero | ⟨k, left, e, he, hbar⟩
      · exact .inl hzero
      · exact .inr ⟨k, left, e, Nat.lt_succ_of_lt he, hbar⟩
    · exact .inr ⟨k, leftOf rest, i, Nat.lt_succ_self i,
        bar_of_popped hsuffix ((mem_popped negTrans_gt).mp hk), rfl⟩

theorem histogram_run (heights : List Int) (hlen : heights.length < 2 ^ 31 - 1) :
    ∃ maxArea, largestRectangleArea heights = some maxArea ∧ Covered heights (heights.length + 1) maxArea := by
  have hround : ∀ i < heights.length + 1, ∀ s, s.1 = stack (· > ·) (seq heights) i ∧ Covered heights i s.2 →
      ∃ s', histogramRound heights heights.length s i = some s' ∧ s'.1 = stack (· > ·) (seq heights) (i + 1) ∧
        Covered heights (i + 1) s'.2 := by
    rintro i hi ⟨stk, maxArea⟩ ⟨rfl, h⟩
    obtain ⟨maxArea', hround, h'⟩ := h.round (Nat.le_of_lt_succ hi)
    exact ⟨_, hround, rfl, h'⟩
  have hstart : Covered heights 0 0 := ⟨Int.le_refl 0, fun k left e he => absurd he (Nat.not_lt_zero e), .inl rfl⟩
  obtain ⟨⟨stk, maxArea⟩, hrun, -, h⟩ := Loop.forRange hround (s := ([], 0)) ⟨rfl, hstart⟩
  have hrounds : CInt.fit ((heights.length : Int) + 1) = some ((heights.length + 1 : Nat) : Int) :=
    CInt.fit_succ (by omega)
  refine ⟨maxArea, ?_, h⟩
  simp only [largestRectangleArea, CInt.ofSize_of_lt (Nat.lt_of_lt_of_le hlen (by decide)), hrounds,
    Int.toNat_natCast, hrun, Option.bind_eq_bind, Option.bind_some]

/-! ## Rectangles and bars -/

theorem Bar.rectangle (h : Bar heights k left e) (he : e ≤ heights.length) :
    Rectangle heights (Bar.area heights k left e) := by
  obtain ⟨hle, hhigher, -, hlt, hbeats, hfirst⟩ := h
  refine ⟨left, e - 1, seq heights k, by omega, by omega, ⟨⟨k, hle, by omega, getElem?_seq (by omega)⟩, ?_⟩, ?_⟩
  · rintro height ⟨l, hleft, hl, hheight⟩
    rw [getElem?_seq (by omega), Option.some_inj] at hheight
    subst hheight
    rcases Nat.lt_trichotomy l k with hlk | rfl | hkl
    · exact Int.le_of_lt (hhigher l hlk hleft)
    · exact Int.le_refl _
    · exact Int.not_lt.mp (hfirst l hkl (by omega))
  · rw [Bar.area, Int.mul_comm]
    congr 1
    omega

theorem exists_leftmost {low : Int} (hlt : j < heights.length)
    (hlow : IsLeast { h | ∃ k, i ≤ k ∧ k ≤ j ∧ heights[k]? = some h } low) :
    ∃ k, i ≤ k ∧ k ≤ j ∧ seq heights k = low ∧ ∀ l, i ≤ l → l < k → low < seq heights l := by
  have hleast : ∀ l, i ≤ l → l ≤ j → low ≤ seq heights l :=
    fun l hil hlj => hlow.2 ⟨l, hil, hlj, getElem?_seq (by omega)⟩
  obtain ⟨k, hik, hkj, hk⟩ := hlow.1
  rw [getElem?_seq (by omega), Option.some_inj] at hk
  induction k using Nat.strongRecOn with
  | ind k ih =>
    by_cases hbefore : ∃ l, i ≤ l ∧ l < k ∧ seq heights l = low
    · obtain ⟨l, hil, hlk, hl⟩ := hbefore
      exact ih l hlk hil (by omega) hl
    · refine ⟨k, hik, hkj, hk, fun l hil hlk => ?_⟩
      have hne : seq heights l ≠ low := fun heq => hbefore ⟨l, hil, hlk, heq⟩
      have hle := hleast l hil (by omega)
      omega

theorem Rectangle.le_bar (hheights : ∀ h ∈ heights, 0 ≤ h) {area : Int} (h : Rectangle heights area) :
    area ≤ 0 ∨ ∃ k left e, e ≤ heights.length ∧ Bar heights k left e ∧ area ≤ Bar.area heights k left e := by
  obtain ⟨i, j, low, hij, hj, hlow, rfl⟩ := h
  obtain ⟨k, hik, hkj, hk, hleft⟩ := exists_leftmost hj hlow
  have hnonneg := seq_nonneg hheights k
  by_cases hpos : low = 0
  · left
    simp [hpos]
  · right
    have hbeats : seq heights k > seq heights heights.length := by
      rw [seq_length]
      omega
    obtain ⟨e, he, hnext⟩ := exists_next (r := (· > ·)) (a := seq heights) (Nat.lt_of_le_of_lt hkj hj) hbeats
    obtain ⟨rest, -, hbar⟩ := exists_bar hnext
    refine ⟨k, leftOf rest, e, he, hbar, ?_⟩
    have hstart : leftOf rest ≤ i := by
      apply Nat.le_of_not_lt
      intro hlt
      obtain ⟨b, hb⟩ := Nat.exists_eq_add_one.mpr (Nat.zero_lt_of_lt hlt)
      have hle := hbar.border b hb.symm
      have hbk := hbar.le
      have hgt := hleft b (by omega) (by omega)
      omega
    have hend : j < e := by
      apply Nat.lt_of_not_le
      intro hle
      have hlower := hnext.beats
      have hke := hnext.lt
      have hge : low ≤ seq heights e := hlow.2 ⟨e, by omega, hle, getElem?_seq (by omega)⟩
      omega
    rw [Bar.area, hk, Int.mul_comm low]
    exact Int.mul_le_mul_of_nonneg_right (by omega) (by omega)

/-- **The greatest area of a rectangle in the histogram**, and no area without bars. -/
theorem largestRectangle (heights : List Int) (hheights : ∀ h ∈ heights, 0 ≤ h)
    (hlen : heights.length < 2 ^ 31 - 1) :
    ∃ area, largestRectangleArea heights = some area ∧ (heights = [] → area = 0) ∧
      (heights ≠ [] → IsGreatest { area | Rectangle heights area } area) := by
  obtain ⟨area, hrun, hcovered⟩ := histogram_run heights hlen
  have hbound : ∀ a, Rectangle heights a → a ≤ area := by
    intro a ha
    rcases ha.le_bar hheights with hle | ⟨k, left, e, he, hbar, hle⟩
    · exact le_trans hle hcovered.nonneg
    · exact le_trans hle (hcovered.bars k left e (Nat.lt_succ_of_le he) hbar)
  refine ⟨area, hrun, ?_, fun hne => ⟨?_, hbound⟩⟩
  · rintro rfl
    rcases hcovered.attained with hzero | ⟨k, left, e, he, hbar, -⟩
    · exact hzero
    · have hke := hbar.next.lt
      simp at he
      omega
  · rcases hcovered.attained with hzero | ⟨k, left, e, he, hbar, harea⟩
    · -- The first bar alone is a rectangle, so it has no height.
      have hpos := List.length_pos_iff.mpr hne
      have hfirst : Rectangle heights (seq heights 0) := by
        refine ⟨0, 0, seq heights 0, Nat.le_refl 0, hpos,
          ⟨⟨0, Nat.le_refl 0, Nat.le_refl 0, getElem?_seq hpos⟩, ?_⟩, by simp⟩
        rintro height ⟨k, -, hk, hheight⟩
        rw [Nat.le_zero.mp hk, getElem?_seq hpos, Option.some_inj] at hheight
        exact Int.le_of_eq hheight
      have heq : area = seq heights 0 := Int.le_antisymm (hzero ▸ seq_nonneg hheights 0) (hbound _ hfirst)
      exact heq ▸ hfirst
    · exact harea ▸ hbar.rectangle (Nat.le_of_lt_succ he)

example : largestRectangleArea [2, 1, 5, 6, 2, 3] = some 10 := by decide

theorem largestRectangle_equal : ∃ area, largestRectangleArea [2, 2, 1] = some area ∧
    (([2, 2, 1] : List Int) = [] → area = 0) ∧
    (([2, 2, 1] : List Int) ≠ [] → IsGreatest { area | Rectangle [2, 2, 1] area } area) :=
  largestRectangle [2, 2, 1] (by simp) (by decide)

theorem largestRectangleArea_of_neg {heights : List Int} (hn : CInt.ofSize heights.length < 0) :
    largestRectangleArea heights = some 0 := by
  have hlow := CInt.le_ofSize heights.length
  have hfit : CInt.fit (CInt.ofSize heights.length + 1) = some (CInt.ofSize heights.length + 1) :=
    CInt.fit_of (by omega) (by omega)
  have hrounds : (CInt.ofSize heights.length + 1).toNat = 0 := by omega
  rw [largestRectangleArea, hfit, Option.bind_eq_bind, Option.bind_some, hrounds]
  rfl

/-- `2 ^ 31` bars are a negative `int`, and none of them is looked at. -/
theorem largestRectangle_long : ¬ ∀ heights : List Int, (∀ h ∈ heights, 0 ≤ h) →
    ∃ area, largestRectangleArea heights = some area ∧ (heights = [] → area = 0) ∧
      (heights ≠ [] → IsGreatest { area | Rectangle heights area } area) := by
  intro h
  obtain ⟨k, hk⟩ : ∃ k : Nat, k = 2 ^ 31 := ⟨_, rfl⟩
  have hne : List.replicate k (1 : Int) ≠ [] := by
    rw [ne_eq, List.replicate_eq_nil_iff]
    omega
  obtain ⟨area, hrun, -, hgreatest⟩ :=
    h (List.replicate k 1) fun h hmem => by rw [List.eq_of_mem_replicate hmem]; decide
  have hsize : CInt.ofSize (List.replicate k (1 : Int)).length = (k : Int) - 2 ^ 32 := by
    rw [List.length_replicate, CInt.ofSize_of_le (by omega) (by omega)]
  obtain rfl := Option.some.inj ((largestRectangleArea_of_neg (by omega)).symm.trans hrun)
  have hfirst : (List.replicate k (1 : Int))[0]? = some 1 := List.getElem?_replicate_of_lt (by omega)
  have hbar : Rectangle (List.replicate k 1) 1 := by
    refine ⟨0, 0, 1, Nat.le_refl 0, by simp; omega, ⟨⟨0, Nat.le_refl 0, Nat.le_refl 0, hfirst⟩, ?_⟩, by decide⟩
    rintro x ⟨i, -, -, hi⟩
    exact Int.le_of_eq (List.eq_of_mem_replicate (List.mem_of_getElem? hi)).symm
  exact absurd ((hgreatest hne).2 hbar) (by decide)

end Playground.MonotonicStack
