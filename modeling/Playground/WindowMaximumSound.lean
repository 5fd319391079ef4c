import Mathlib.Data.Int.Order.Basic
import Mathlib.Order.Bounds.Defs
import Playground.Lib.Loop
import Playground.Lib.MonotoneStack
import Playground.Lib.Vec
import Playground.SlidingWindow

/-!
# The front of the deque is the maximum of the window

The deque is the part within the window of the monotone stack, upside down.
What has been taken off its back is at most something that came later, so the
front is at least every element of the window.
-/

namespace Playground.SlidingWindow

open MonotoneStack Vec

variable {nums result : List Int} {i k : Nat}

/-! ## The deque -/

/-- The indices in the deque when `i` elements have been seen, the last first. -/
def candidates (nums : List Int) (k i : Nat) : List Nat := (stack (· ≤ ·) (seq nums) i).filter fun j => i ≤ j + k

theorem popFront_eq (bound : Int) {dq : List Nat} (hdq : dq.Pairwise (· < ·)) :
    popFront bound dq = dq.filter fun j : Nat => ¬ (j : Int) ≤ bound := by
  induction dq with
  | nil => rfl
  | cons front dq ih =>
    obtain ⟨hfront, hdq⟩ := List.pairwise_cons.mp hdq
    by_cases h : (front : Int) ≤ bound
    · simpa [popFront, h] using ih hdq
    · have hall : ∀ j ∈ front :: dq, ¬ (j : Int) ≤ bound := by
        intro j hj
        rcases List.mem_cons.mp hj with rfl | hj
        · exact h
        · have := hfront j hj
          omega
      rw [popFront, if_neg h]
      exact (List.filter_eq_self.mpr (by simpa using hall)).symm

theorem popBack_eq (x : Int) (dq : List Nat) (hdq : ∀ j ∈ dq, j < nums.length) :
    popBack nums x dq = some (dq.dropWhile fun j => seq nums j ≤ x) := by
  induction dq with
  | nil => rfl
  | cons back dq ih =>
    have hback := getElem?_seq (hdq back List.mem_cons_self)
    by_cases h : seq nums back ≤ x
    · simp [popBack, hback, h, ih fun j hj => hdq j (List.mem_cons_of_mem back hj)]
    · simp [popBack, hback, h]

theorem mem_candidates {j : Nat} : j ∈ candidates nums k i ↔ j ∈ stack (· ≤ ·) (seq nums) i ∧ i ≤ j + k := by
  simp [candidates]

theorem pairwise_candidates : (candidates nums k i).reverse.Pairwise (· < ·) := by
  rw [List.pairwise_reverse]
  exact (pairwise_stack i).sublist List.filter_sublist

/-- What the two loops and the push make of the deque. -/
theorem deque_step (hk : 0 < k) (hi : i < nums.length) :
    ∃ dq, popBack nums (seq nums i) (popFront (i - k) (candidates nums k i).reverse).reverse = some dq ∧
      dq.reverse ++ [i] = (candidates nums k (i + 1)).reverse := by
  have hfront : (popFront (i - k) (candidates nums k i).reverse).reverse =
      (stack (· ≤ ·) (seq nums) i).filter fun j => i + 1 ≤ j + k := by
    rw [popFront_eq _ pairwise_candidates, List.filter_reverse, List.reverse_reverse, candidates,
      List.filter_filter]
    refine List.filter_congr fun j _ => ?_
    rw [Bool.eq_iff_iff]
    simp
    omega
  have hstack : (stack (· ≤ ·) (seq nums) i).Pairwise fun j j' =>
      ¬ decide (seq nums j ≤ seq nums i) → ¬ decide (seq nums j' ≤ seq nums i) :=
    pairwise_keep negTrans_le (fun j hj => ((mem_stack negTrans_le).mp hj).2) (seq nums i)
  have hback := popBack_eq (seq nums i) ((stack (· ≤ ·) (seq nums) i).filter fun j => i + 1 ≤ j + k)
    fun j hj => Nat.lt_trans (lt_of_mem_stack (List.mem_filter.mp hj).1) hi
  have hin : i + 1 ≤ i + k := by omega
  rw [hfront]
  refine ⟨_, hback, ?_⟩
  rw [dropWhile_eq_filter (hstack.sublist List.filter_sublist), List.filter_filter, candidates, stack,
    dropWhile_eq_filter hstack, List.filter_cons, if_pos (decide_eq_true hin), List.filter_filter,
    List.reverse_cons]
  simp only [Bool.and_comm]

/-! ## The windows -/

def window (nums : List Int) (k : Int) (t : Nat) : Set Int :=
  { y | ∃ j : Nat, t ≤ j ∧ (j : Int) < t + k ∧ nums[j]? = some y }

theorem front_greatest (hi : i < nums.length) (hk : 0 < k) (hfull : k ≤ i + 1) :
    ∃ x, (do nums[← (candidates nums k (i + 1)).reverse.head?]?) = some x ∧
      IsGreatest (window nums k (i + 1 - k)) x := by
  have hmem : i ∈ (candidates nums k (i + 1)).reverse := by
    simp [mem_candidates, stack]
    omega
  obtain ⟨front, rest, hsplit⟩ := List.exists_cons_of_ne_nil (List.ne_nil_of_mem hmem)
  have hfront : front ∈ candidates nums k (i + 1) := by
    rw [← List.mem_reverse, hsplit]
    exact List.mem_cons_self
  obtain ⟨hstack, hwindow⟩ := mem_candidates.mp hfront
  obtain ⟨hlt, hunbeaten⟩ := (mem_stack negTrans_le).mp hstack
  refine ⟨seq nums front, ?_, ⟨front, by omega, by omega, getElem?_seq (by omega)⟩, ?_⟩
  · simp [hsplit]
    exact getElem?_seq (by omega)
  · rintro y ⟨j, hj, hj', hy⟩
    have hjn : j < nums.length := (List.getElem?_eq_some_iff.mp hy).1
    rw [getElem?_seq hjn, Option.some_inj] at hy
    subst hy
    obtain ⟨s, hs, hjs, hbeats⟩ := exists_survivor (r := (· ≤ ·)) (a := seq nums) (i := i + 1) negTrans_le
      (fun x y z => le_trans) (by omega : j < i + 1)
    have hle : seq nums j ≤ seq nums s := by
      rcases hbeats with rfl | hle
      · exact Int.le_refl _
      · exact hle
    have hsmem : s ∈ front :: rest := by
      rw [← hsplit, List.mem_reverse]
      exact mem_candidates.mpr ⟨hs, by omega⟩
    have hsorted : (front :: rest).Pairwise (· < ·) := hsplit ▸ pairwise_candidates
    rcases List.mem_cons.mp hsmem with rfl | hrest
    · exact hle
    · have hbefore := (List.pairwise_cons.mp hsorted).1 s hrest
      have := hunbeaten s hbefore (lt_of_mem_stack hs)
      omega

/-- The windows that end among the first `i` elements, and their maxima. -/
structure Maxima (nums : List Int) (k i : Nat) (result : List Int) : Prop where
  length : result.length = i + 1 - k
  greatest : ∀ t x, result[t]? = some x → IsGreatest (window nums k t) x

theorem Maxima.round (hi : i < nums.length) (hk : 0 < k) (h : Maxima nums k i result) :
    ∃ result', windowRound nums k ((candidates nums k i).reverse, result) i =
      some ((candidates nums k (i + 1)).reverse, result') ∧ Maxima nums k (i + 1) result' := by
  obtain ⟨dq, hback, hpush⟩ := deque_step hk hi
  have hx := getElem?_seq hi
  by_cases hfull : k ≤ i + 1
  · obtain ⟨x, hfront, hgreatest⟩ := front_greatest hi hk hfull
    have hlast : (k : Int) - 1 ≤ i := by omega
    obtain ⟨front, hhead, hread⟩ := Option.bind_eq_some_iff.mp hfront
    refine ⟨result ++ [x], ?_, ?_, ?_⟩
    · simp only [windowRound, hx, hback, hpush, if_pos hlast, hhead, hread, Option.bind_eq_bind, Option.bind_some]
    · simp [h.length]
      omega
    · intro t y hy
      rcases Nat.lt_or_ge t result.length with ht | ht
      · rw [List.getElem?_append_left ht] at hy
        exact h.greatest t y hy
      · rw [List.getElem?_append_right ht] at hy
        have htop := (List.getElem?_eq_some_iff.mp hy).1
        have hend : t = result.length := by
          simp at htop
          omega
        subst hend
        simp at hy
        subst hy
        rw [h.length]
        exact hgreatest
  · have hlast : ¬ (k : Int) - 1 ≤ i := by omega
    refine ⟨result, by simp [windowRound, hx, hback, hpush, hlast], ?_, h.greatest⟩
    rw [h.length]
    omega

theorem maxSlidingWindow_run (hsize : nums.length < 2 ^ 31) (hk : 0 < k) :
    ∃ result, maxSlidingWindow nums k = some result ∧ Maxima nums k nums.length result := by
  have hround : ∀ i < nums.length, ∀ s, s.1 = (candidates nums k i).reverse ∧ Maxima nums k i s.2 →
      ∃ s', windowRound nums k s i = some s' ∧ s'.1 = (candidates nums k (i + 1)).reverse ∧
        Maxima nums k (i + 1) s'.2 := by
    rintro i hi ⟨dq, result⟩ ⟨rfl, h⟩
    obtain ⟨result', hround, h'⟩ := h.round hi hk
    exact ⟨_, hround, rfl, h'⟩
  have hstart : Maxima nums k 0 [] := by
    refine ⟨?_, by simp⟩
    simp
    omega
  obtain ⟨⟨dq, result⟩, hrun, -, h⟩ := Loop.forRange hround (s := ([], [])) ⟨rfl, hstart⟩
  exact ⟨result, by simp [maxSlidingWindow, CInt.ofSize_of_lt hsize, hrun], h⟩

/-- **The maximum of each window of `k` elements.** -/
theorem window_maxima (nums : List Int) (k : Int) (hsize : nums.length < 2 ^ 31) (hk : 1 ≤ k) :
    ∃ result, maxSlidingWindow nums k = some result ∧ (result.length : Int) = max 0 (nums.length - k + 1) ∧
      ∀ t x, result[t]? = some x → IsGreatest (window nums k t) x := by
  obtain ⟨k, rfl⟩ := Int.eq_ofNat_of_zero_le (by omega : 0 ≤ k)
  obtain ⟨result, hrun, hlen, hgreatest⟩ := maxSlidingWindow_run hsize (by omega : 0 < k)
  refine ⟨result, hrun, ?_, hgreatest⟩
  omega

example : maxSlidingWindow [1, 3, -1, -3, 5, 3, 6, 7] 3 = some [3, 3, 5, 5, 6, 7] := by decide

theorem window_maxima_ties : ∃ result, maxSlidingWindow [2, 2, 1] 2 = some result ∧
    (result.length : Int) = max 0 (([2, 2, 1] : List Int).length - 2 + 1) ∧
    ∀ t x, result[t]? = some x → IsGreatest (window [2, 2, 1] 2 t) x :=
  window_maxima [2, 2, 1] 2 (by decide) (by decide)

/-- `2 ^ 31` elements are a negative `int`, so the loop is not entered. -/
theorem window_maxima_long : ¬ ∀ (nums : List Int) (k : Int), 1 ≤ k →
    ∃ result, maxSlidingWindow nums k = some result ∧ (result.length : Int) = max 0 (nums.length - k + 1) ∧
      ∀ t x, result[t]? = some x → IsGreatest (window nums k t) x := by
  intro h
  obtain ⟨n, hn⟩ : ∃ n : Nat, n = 2 ^ 31 := ⟨_, rfl⟩
  obtain ⟨result, hrun, hlen, -⟩ := h (List.replicate n 0) 1 (Int.le_refl 1)
  rw [maxSlidingWindow, List.length_replicate, Int.toNat_of_nonpos (Int.le_of_lt (CInt.ofSize_neg hn))] at hrun
  cases hrun
  simp at hlen
  omega

end Playground.SlidingWindow
