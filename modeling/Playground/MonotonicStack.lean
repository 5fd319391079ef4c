import Mathlib.Order.Bounds.Defs
import Playground.Lib.Vec

/-!
# Monotonic stacks (`dsa/monotonic_stack.cpp`)

A `std::stack` is a list, its top first. An index outside a vector has no
result. Indices are `int`s, and only the last `++i` of the third function may
overflow; its areas are exact integers.
-/

namespace Playground.MonotonicStack

/-! ## The next greater element -/

section
variable (nums : List Int)

/-- `while (!stk.empty() && nums[stk.top()] < nums[i])`, where `answer` is what is written for the index on top. -/
def popSmaller (x : Int) (answer : Nat → Int) : List Nat → List Int → Option (List Nat × List Int)
  | [], result => some ([], result)
  | top :: stk, result => do
    if (← nums[top]?) < x then popSmaller x answer stk (← Vec.write result top (answer top))
    else some (top :: stk, result)

def scanRound (answer : Nat → Int → Nat → Int) (s : List Nat × List Int) (i : Nat) :
    Option (List Nat × List Int) := do
  let x ← nums[i]?
  let (stk, result) ← popSmaller nums x (answer i x) s.1 s.2
  some (i :: stk, result)

/-- What the two functions differ in is the value without an answer and the answer. -/
def scan (unanswered : Int) (answer : Nat → Int → Nat → Int) : Option (List Int) := do
  let n := CInt.ofSize nums.length
  let result ← Vec.create n unanswered
  let (_, result) ← (List.range n.toNat).foldlM (scanRound nums answer) ([], result)
  some result

end

def nextGreaterElement (nums : List Int) : Option (List Int) := scan nums (-1) fun _ x _ => x

def dailyTemperatures (temps : List Int) : Option (List Int) := scan temps 0 fun i _ prev => i - (prev : Nat)

/-! ## The largest rectangle in a histogram -/

section
variable (heights : List Int)

/-- The width of the bar above `stk` that ends before `i`. -/
def width (i : Nat) : List Nat → Int
  | [] => i
  | top :: _ => i - (top : Nat) - 1

/-- `while (!stk.empty() && heights[stk.top()] > current_height)`. -/
def popHigher (i : Nat) (current : Int) : List Nat → Int → Option (List Nat × Int)
  | [], maxArea => some ([], maxArea)
  | top :: stk, maxArea => do
    let height ← heights[top]?
    if height > current then popHigher i current stk (max maxArea (height * width i stk))
    else some (top :: stk, maxArea)

def currentHeight (n : Int) (i : Nat) : Option Int := if i = n then some 0 else heights[i]?

def histogramRound (n : Int) (s : List Nat × Int) (i : Nat) : Option (List Nat × Int) := do
  let (stk, maxArea) ← popHigher heights i (← currentHeight heights n i) s.1 s.2
  some (i :: stk, maxArea)

def largestRectangleArea : Option Int := do
  let n := CInt.ofSize heights.length
  let rounds ← CInt.fit (n + 1) -- the last `++i`
  let (_, maxArea) ← (List.range rounds.toNat).foldlM (histogramRound heights n) ([], 0)
  some maxArea

/-- A rectangle over the bars from `i` to `j`, as high as the lowest of these. -/
def Rectangle (area : Int) : Prop := ∃ i j low, i ≤ j ∧ j < heights.length ∧
  IsLeast { h | ∃ k, i ≤ k ∧ k ≤ j ∧ heights[k]? = some h } low ∧ area = (j - i + 1) * low

end

end Playground.MonotonicStack
