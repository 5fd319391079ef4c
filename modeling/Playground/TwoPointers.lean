import Playground.Lib.Loop
import Playground.Lib.Sorting
import Playground.Lib.Vec

/-!
# Two pointers (`dsa/two_pointers.cpp`)

Two ends of a vector, a linked list, and three borders in a vector. Heights
and areas are exact integers. A `ListNode*` is `none` or a node of any type of
nodes, and `next` has the `next` of each; the nodes are told apart by their
addresses. Indexing outside a vector and going on from a null pointer have no
result, and loops are given a number of rounds.
-/

namespace Playground.TwoPointers

open Loop (Outcome)

/-! ## Opposite ends -/

structure Ends where
  left : Int := 0
  right : Int
  maxArea : Int := 0

section
variable (height : List Int)

def areaRound (s : Ends) : Option Ends := do
  let x ← Vec.at? height s.left
  let y ← Vec.at? height s.right
  let maxArea := max s.maxArea ((s.right - s.left) * min x y)
  -- the shorter side moves
  if x < y then some { s with left := s.left + 1, maxArea }
  else some { s with right := s.right - 1, maxArea }

def areaBody (s : Ends) : Outcome Ends := if s.left < s.right then .ofOption (areaRound height s) else .exit

/-- Once it is an `int`, neither `right` nor `left` passes the other. -/
def maxArea (fuel : Nat) : Option Int := do
  let right ← CInt.fit (CInt.ofSize height.length - 1)
  let s ← Loop.run (areaBody height) fuel { right }
  some s.maxArea

/-- The area between two sides. -/
def Container (area : Int) : Prop :=
  ∃ (i j : Nat) (x y : Int), i < j ∧ height[i]? = some x ∧ height[j]? = some y ∧ area = ((j : Int) - i) * min x y

end

/-! ## Fast and slow -/

section
variable {Node : Type} [DecidableEq Node] (next : Node → Option Node)

/-- `met` is the early return. -/
structure Pointers (Node : Type) where
  slow : Option Node
  fast : Option Node
  met : Bool := false

/-- `while (fast && fast->next)`. -/
def chaseBody (s : Pointers Node) : Outcome (Pointers Node) :=
  if s.met then .exit
  else match s.fast.bind next with
    | none => .exit
    | some ahead => .ofOption do
      let slow ← s.slow.map next
      let fast := next ahead
      some { slow, fast, met := slow = fast }

def hasCycle (fuel : Nat) (head : Option Node) : Option Bool := do
  let s ← Loop.run (chaseBody next) fuel { slow := head, fast := head }
  some s.met

/-- `while (slow != fast)`. -/
def meetBody (s : Option Node × Option Node) : Outcome (Option Node × Option Node) :=
  if s.1 ≠ s.2 then .ofOption do
    some (← s.1.map next, ← s.2.map next)
  else .exit

def findCycleStart (fuel : Nat) (head : Option Node) : Option (Option Node) := do
  let s ← Loop.run (chaseBody next) fuel { slow := head, fast := head }
  if s.met then
    let (slow, _) ← Loop.run (meetBody next) fuel (head, s.fast)
    some slow
  else some none

end

/-! ## The walk along a list -/

section
variable {Node : Type} (next : Node → Option Node) (head : Option Node)

/-- Where following `next` from `head` is after `i` steps. -/
def walk : Nat → Option Node
  | 0 => head
  | i + 1 => (walk i).bind next

/-- The walk is at `v` after `i` steps, and later again. -/
def VisitedAgain (i : Nat) (v : Node) : Prop := walk next head i = some v ∧ ∃ j > i, walk next head j = some v

def FirstVisitedAgain (v : Node) : Prop :=
  ∃ i, VisitedAgain next head i v ∧ ∀ j < i, ∀ u, ¬ VisitedAgain next head j u

end

/-! ## Partitioning -/

structure Flag where
  nums : List Int
  low : Int := 0
  mid : Int := 0
  high : Int

/-- `std::swap(nums[i], nums[j])`. -/
def swap (nums : List Int) (i j : Int) : Option (List Int) :=
  if 0 ≤ i ∧ 0 ≤ j then Sorting.swap nums i.toNat j.toNat else none

def flagRound (s : Flag) : Option Flag := do
  let x ← Vec.at? s.nums s.mid
  if x = 0 then
    let nums ← swap s.nums s.low s.mid
    some { s with nums, low := ← CInt.fit (s.low + 1), mid := ← CInt.fit (s.mid + 1) }
  else if x = 1 then some { s with mid := ← CInt.fit (s.mid + 1) }
  else
    let nums ← swap s.nums s.mid s.high
    some { s with nums, high := ← CInt.fit (s.high - 1) }

def flagBody (s : Flag) : Outcome Flag := if s.mid ≤ s.high then .ofOption (flagRound s) else .exit

def sortColors (fuel : Nat) (nums : List Int) : Option (List Int) := do
  let high ← CInt.fit (CInt.ofSize nums.length - 1)
  let s ← Loop.run flagBody fuel { nums, high }
  some s.nums

end Playground.TwoPointers
