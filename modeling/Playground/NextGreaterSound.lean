import Mathlib.Data.Int.Order.Basic
import Playground.Lib.Loop
import Playground.Lib.MonotoneStack
import Playground.MonotonicStack

/-!
# The next greater element is written when an index is popped

The program's stack is the monotone stack of the values seen so far, and what
is popped at `i` is what `i` is the next greater of.
-/

namespace Playground.MonotonicStack

open MonotoneStack Vec

variable {nums result : List Int} {i j k : Nat}

theorem popSmaller_eq (x : Int) (answer : Nat → Int) (stk : List Nat) (result : List Int)
    (hstk : ∀ k ∈ stk, k < nums.length) (hlen : result.length = nums.length) :
    ∃ result', popSmaller nums x answer stk result = some (stk.dropWhile (fun k => seq nums k < x), result') ∧
      result'.length = nums.length ∧
      ∀ k, result'[k]? = if k ∈ stk.takeWhile fun k => seq nums k < x then some (answer k) else result[k]? := by
  induction stk generalizing result with
  | nil => exact ⟨result, by simp [popSmaller], hlen, by simp⟩
  | cons top stk ih =>
    have htop := hstk top List.mem_cons_self
    by_cases hlt : seq nums top < x
    · obtain ⟨result', hpop, hlen', hget⟩ := ih (result.set top (answer top))
        (fun k hk => hstk k (List.mem_cons_of_mem top hk)) (by simp [hlen])
      refine ⟨result', ?_, hlen', ?_⟩
      · simp [popSmaller, getElem?_seq htop, hlt, Vec.write_of (hlen ▸ htop), hpop]
      · intro k
        rw [hget]
        by_cases hk : k = top
        · subst hk
          simp [hlt, List.getElem?_set_self (hlen ▸ htop)]
        · simp [hlt, hk, List.getElem?_set_ne (Ne.symm hk)]
    · refine ⟨result, ?_, hlen, ?_⟩
      · simp [popSmaller, getElem?_seq htop, hlt]
      · simp [hlt]

/-- The answers that are known after `i` elements. -/
structure Answered (nums : List Int) (unanswered : Int) (answer : Nat → Int → Nat → Int) (i : Nat)
    (result : List Int) : Prop where
  length : result.length = nums.length
  found : ∀ k j, j < i → Next (· < ·) (seq nums) k j → result[k]? = some (answer j (seq nums j) k)
  missing : ∀ k < nums.length, (∀ j < i, ¬ Next (· < ·) (seq nums) k j) → result[k]? = some unanswered

theorem Answered.round {unanswered : Int} {answer : Nat → Int → Nat → Int} (hi : i < nums.length)
    (h : Answered nums unanswered answer i result) : ∃ result', scanRound nums answer
        (stack (· < ·) (seq nums) i, result) i = some (stack (· < ·) (seq nums) (i + 1), result') ∧
      Answered nums unanswered answer (i + 1) result' := by
  obtain ⟨result', hpop, hlen, hget⟩ := popSmaller_eq (seq nums i) (answer i (seq nums i))
    (stack (· < ·) (seq nums) i) result (fun k hk => Nat.lt_trans (lt_of_mem_stack hk) hi) h.length
  have hpopped : ∀ k, (k ∈ (stack (· < ·) (seq nums) i).takeWhile fun k => seq nums k < seq nums i) ↔
    Next (· < ·) (seq nums) k i := fun k => mem_popped negTrans_lt
  refine ⟨result', by simp [scanRound, getElem?_seq hi, hpop, stack], hlen, ?_, ?_⟩
  · intro k j hj hnext
    rw [hget]
    rcases Nat.lt_succ_iff_lt_or_eq.mp hj with hj | rfl
    · have hnot : ¬ Next (· < ·) (seq nums) k i := fun h' => Nat.ne_of_lt hj (hnext.unique h')
      rw [if_neg (mt (hpopped k).mp hnot), h.found k j hj hnext]
    · rw [if_pos ((hpopped k).mpr hnext)]
  · intro k hk hnone
    rw [hget, if_neg (mt (hpopped k).mp (hnone i (Nat.lt_succ_self i)))]
    exact h.missing k hk fun j hj => hnone j (Nat.lt_succ_of_lt hj)

theorem scan_spec (hsize : nums.length < 2 ^ 31) (unanswered : Int) (answer : Nat → Int → Nat → Int) :
    ∃ result, scan nums unanswered answer = some result ∧ Answered nums unanswered answer nums.length result := by
  have hround : ∀ i < nums.length, ∀ s, s.1 = stack (· < ·) (seq nums) i ∧ Answered nums unanswered answer i s.2 →
      ∃ s', scanRound nums answer s i = some s' ∧ s'.1 = stack (· < ·) (seq nums) (i + 1) ∧
        Answered nums unanswered answer (i + 1) s'.2 := by
    rintro i hi ⟨stk, result⟩ ⟨rfl, h⟩
    obtain ⟨result', hround, h'⟩ := h.round hi
    exact ⟨_, hround, rfl, h'⟩
  have hstart : Answered nums unanswered answer 0 (List.replicate nums.length unanswered) := by
    refine ⟨by simp, fun k j hj => absurd hj (Nat.not_lt_zero j), ?_⟩
    intro k hk _
    simp [hk]
  obtain ⟨⟨stk, result⟩, hrun, -, h⟩ := Loop.forRange hround (s := ([], List.replicate nums.length unanswered))
    ⟨rfl, hstart⟩
  exact ⟨result, by simp [scan, CInt.ofSize_of_lt hsize, hrun], h⟩

/-! ## Both functions -/

/-- The least index above `i` with a greater element. -/
def IsNextGreater (a : List Int) (i j : Nat) : Prop :=
  IsLeast { j | i < j ∧ ∃ x y, a[i]? = some x ∧ a[j]? = some y ∧ x < y } j

theorem isNextGreater_iff (hi : i < nums.length) :
    IsNextGreater nums i j ↔ j < nums.length ∧ Next (· < ·) (seq nums) i j := by
  have hmem : ∀ l, l ∈ { j | i < j ∧ ∃ x y, nums[i]? = some x ∧ nums[j]? = some y ∧ x < y } ↔
      i < l ∧ l < nums.length ∧ seq nums i < seq nums l := by
    intro l
    constructor
    · rintro ⟨hil, x, y, hx, hy, hlt⟩
      have hl := (List.getElem?_eq_some_iff.mp hy).1
      rw [getElem?_seq hi] at hx
      rw [getElem?_seq hl] at hy
      cases hx
      cases hy
      exact ⟨hil, hl, hlt⟩
    · rintro ⟨hil, hl, hlt⟩
      exact ⟨hil, _, _, getElem?_seq hi, getElem?_seq hl, hlt⟩
  constructor
  · rintro ⟨hj, hleast⟩
    obtain ⟨hij, hlen, hlt⟩ := (hmem j).mp hj
    refine ⟨hlen, hij, hlt, ?_⟩
    intro l hil hlj hl
    exact absurd (hleast ((hmem l).mpr ⟨hil, Nat.lt_trans hlj hlen, hl⟩)) (Nat.not_le_of_lt hlj)
  · rintro ⟨hlen, hij, hlt, hfirst⟩
    refine ⟨(hmem j).mpr ⟨hij, hlen, hlt⟩, ?_⟩
    intro l hl
    obtain ⟨hil, -, hlt'⟩ := (hmem l).mp hl
    exact Nat.le_of_not_lt fun hlj => hfirst l hil hlj hlt'

/-- **The next greater element, and the distance to it.** -/
theorem next_greater (a : List Int) (hsize : a.length < 2 ^ 31) :
    ∃ greater days, nextGreaterElement a = some greater ∧ dailyTemperatures a = some days ∧
      greater.length = a.length ∧ days.length = a.length ∧ ∀ i < a.length,
        (∀ j, IsNextGreater a i j → greater[i]? = a[j]? ∧ days[i]? = some ((j : Int) - i)) ∧
        ((∀ j, ¬ IsNextGreater a i j) → greater[i]? = some (-1) ∧ days[i]? = some 0) := by
  obtain ⟨greater, hgreater, h⟩ := scan_spec hsize (-1) fun _ x _ => x
  obtain ⟨days, hdays, h'⟩ := scan_spec hsize 0 fun i _ prev => i - (prev : Nat)
  refine ⟨greater, days, hgreater, hdays, h.length, h'.length, fun i hi => ⟨?_, ?_⟩⟩
  · intro j hj
    obtain ⟨hlen, hnext⟩ := (isNextGreater_iff hi).mp hj
    rw [h.found i j hlen hnext, h'.found i j hlen hnext, getElem?_seq hlen]
    exact ⟨rfl, rfl⟩
  · intro hnone
    have hmissing : ∀ j < a.length, ¬ Next (· < ·) (seq a) i j :=
      fun j hj hnext => hnone j ((isNextGreater_iff hi).mpr ⟨hj, hnext⟩)
    exact ⟨h.missing i hi hmissing, h'.missing i hi hmissing⟩

example : nextGreaterElement [4, 5, 2, 25, 7, 8] = some [5, 25, 25, -1, 8, -1] ∧
    dailyTemperatures [73, 74, 75, 71, 69, 72, 76, 73] = some [1, 1, 4, 2, 1, 1, 0, 0] := by decide

theorem next_greater_ties : ∃ greater days, nextGreaterElement [2, 2, 3] = some greater ∧
    dailyTemperatures [2, 2, 3] = some days ∧ greater.length = 3 ∧ days.length = 3 ∧ ∀ i < 3,
      (∀ j, IsNextGreater [2, 2, 3] i j → greater[i]? = [2, 2, 3][j]? ∧ days[i]? = some ((j : Int) - i)) ∧
      ((∀ j, ¬ IsNextGreater [2, 2, 3] i j) → greater[i]? = some (-1) ∧ days[i]? = some 0) :=
  next_greater [2, 2, 3] (by decide)

/-- `2 ^ 31` elements are a negative `int`. -/
theorem next_greater_long : ¬ ∀ a : List Int,
    ∃ greater days, nextGreaterElement a = some greater ∧ dailyTemperatures a = some days ∧
      greater.length = a.length ∧ days.length = a.length ∧ ∀ i < a.length,
        (∀ j, IsNextGreater a i j → greater[i]? = a[j]? ∧ days[i]? = some ((j : Int) - i)) ∧
        ((∀ j, ¬ IsNextGreater a i j) → greater[i]? = some (-1) ∧ days[i]? = some 0) := by
  intro h
  obtain ⟨k, hk⟩ : ∃ k : Nat, k = 2 ^ 31 := ⟨_, rfl⟩
  obtain ⟨greater, days, hgreater, -⟩ := h (List.replicate k 0)
  rw [nextGreaterElement, scan, List.length_replicate, Vec.create_of_neg (CInt.ofSize_neg hk)] at hgreater
  cases hgreater

end Playground.MonotonicStack
