import Mathlib.Algebra.Order.Floor.Defs
import Mathlib.Data.Rat.Floor
import Playground.Lib.CInt
import Playground.Lib.Loop

/-!
# Binary search on the answer (`dsa/binary_search_on_answer.cpp`)

Both problems search an interval of answers with the loop of the file's
template. `fit` gives the value of an `int` operation from the exact one:
`some` is exact arithmetic, `CInt.fit` that of 32 bits. The hours are counted
in a `long` and are exact. The largest of no elements has no value, and loops
are given a number of rounds.
-/

namespace Playground.BinarySearchOnAnswer

open Loop (Outcome)

section
variable (fit : Int → Option Int)

/-! ## The template -/

def searchRound (feasible : Int → Option Bool) (s : Int × Int) : Option (Int × Int) := do
  let mid ← fit (s.1 + (← fit (s.2 - s.1)).tdiv 2)
  if ← feasible mid then some (s.1, mid) else some (← fit (mid + 1), s.2)

def searchBody (feasible : Int → Option Bool) (s : Int × Int) : Outcome (Int × Int) :=
  if s.1 < s.2 then .ofOption (searchRound fit feasible s) else .exit

/-! ## Koko eating bananas -/

/-- `hours_needed += (pile + speed - 1) / speed`. -/
def addHours (speed hoursNeeded pile : Int) : Option Int := do
  let dividend ← fit ((← fit (pile + speed)) - 1)
  if speed = 0 then none else some (hoursNeeded + dividend.tdiv speed)

def canFinish (piles : List Int) (h speed : Int) : Option Bool := do
  let hoursNeeded ← piles.foldlM (addHours fit speed) 0
  some (hoursNeeded ≤ h)

def minEatingSpeed (fuel : Nat) (piles : List Int) (h : Int) : Option Int := do
  let hi ← piles.max?
  let (lo, _) ← Loop.run (searchBody fit (canFinish fit piles h)) fuel (1, hi)
  some lo

/-! ## Split array largest sum -/

/-- The loop of `canSplit`, with its early return. -/
def canSplitFrom (m maxSum : Int) : List Int → Int → Int → Option Bool
  | [], _, _ => some true
  | num :: nums, splits, currentSum => do
    let sum ← fit (currentSum + num)
    if sum > maxSum then
      let splits ← fit (splits + 1)
      if splits > m then some false else canSplitFrom m maxSum nums splits num
    else canSplitFrom m maxSum nums splits sum

def canSplit (nums : List Int) (m maxSum : Int) : Option Bool := canSplitFrom fit m maxSum nums 1 0

def splitArray (fuel : Nat) (nums : List Int) (m : Int) : Option Int := do
  let lo ← nums.max?
  let hi ← nums.foldlM (fun sum num => fit (sum + num)) 0
  let (lo, _) ← Loop.run (searchBody fit (canSplit fit nums m)) fuel (lo, hi)
  some lo

end

/-! ## What is searched for -/

/-- The hours for all piles, each in whole hours. -/
def hours (piles : List Int) (speed : Int) : Int := (piles.map fun pile : Int => ⌈(pile : ℚ) / speed⌉).sum

end Playground.BinarySearchOnAnswer
