import Mathlib.Logic.Function.Basic
import Playground.Lib.CInt

/-!
# Sliding windows (`dsa/sliding_window.cpp`)

An index outside a vector, and the front of an empty deque, have no result.
Indices are below an `int`, so for a positive `k` no arithmetic overflows.
-/

namespace Playground.SlidingWindow

/-! ## The greatest sum of a window -/

section
variable (nums : List Int) (k : Int)

def addNext (windowSum : Int) (i : Nat) : Option Int := do CInt.fit (windowSum + (← nums[i]?))

/-- `k` as a `size_t`. -/
def start : Nat := (k % 2 ^ 64).toNat

/-- `window_sum` and `max_sum`. -/
def slideRound (s : Int × Int) (i : Nat) : Option (Int × Int) := do
  let difference ← CInt.fit ((← nums[i]?) - (← nums[i - start k]?))
  let windowSum ← CInt.fit (s.1 + difference)
  some (windowSum, max s.2 windowSum)

def maxSumSubarray : Option Int := do
  let windowSum ← (List.range k.toNat).foldlM (addNext nums) 0
  let (_, maxSum) ← ((List.range nums.length).drop (start k)).foldlM (slideRound nums k) (windowSum, windowSum)
  some maxSum

end

/-! ## The longest substring without repeating characters -/

/-- The variables of `lengthOfLongestSubstring`, over any type of characters. -/
structure Substring (α : Type) where
  charIndex : α → Option Nat := fun _ => none
  maxLen : Int := 0
  left : Nat := 0

section
variable {α : Type} [DecidableEq α] (s : List α)

/-- The left end jumps past the last `c`, if that is within the window. -/
def jump (st : Substring α) (c : α) : Nat :=
  match st.charIndex c with
  | some last => if st.left ≤ last then last + 1 else st.left
  | none => st.left

def substringRound (st : Substring α) (right : Nat) : Option (Substring α) := do
  let c ← s[right]?
  let left := jump st c
  let charIndex := Function.update st.charIndex c (some right)
  some { charIndex, maxLen := max st.maxLen ((right : Int) - left + 1), left }

def lengthOfLongestSubstring : Option Int := do
  let st ← (List.range (CInt.ofSize s.length).toNat).foldlM (substringRound s) {}
  some st.maxLen

end

/-! ## The maximum of each window -/

section
variable (nums : List Int) (k : Int)

/-- `while (!dq.empty() && dq.front() <= bound)`. -/
def popFront (bound : Int) : List Nat → List Nat
  | [] => []
  | front :: dq => if front ≤ bound then popFront bound dq else front :: dq

/-- `while (!dq.empty() && nums[dq.back()] <= x)`, with the back of the deque first. -/
def popBack (x : Int) : List Nat → Option (List Nat)
  | [] => some []
  | back :: dq => do
    if (← nums[back]?) ≤ x then popBack x dq else some (back :: dq)

/-- The deque, its front first, and the result. -/
def windowRound (st : List Nat × List Int) (i : Nat) : Option (List Nat × List Int) := do
  let dq := popFront (i - k) st.1
  let dq := (← popBack nums (← nums[i]?) dq.reverse).reverse ++ [i]
  if k - 1 ≤ i then some (dq, st.2 ++ [← nums[← dq.head?]?]) else some (dq, st.2)

def maxSlidingWindow : Option (List Int) := do
  let (_, result) ← (List.range (CInt.ofSize nums.length).toNat).foldlM (windowRound nums k) ([], [])
  some result

end

end Playground.SlidingWindow
