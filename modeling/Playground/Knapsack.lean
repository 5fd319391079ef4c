import Mathlib.Algebra.Ring.Int.Defs
import Playground.Lib.CInt
import Playground.Lib.Fill

/-!
# The 0/1 knapsack (`dsa/knapsack_01.cpp`)

Weights and values are exact integers. The number of items is converted to
`int`, so the sizes of the tables may overflow. An index outside a table or
the items has no result.
-/

namespace Playground.Knapsack

structure Item where
  weight : Int
  value : Int

/-- The values of `w` in `for (int w = hi; w >= lo; --w)`. -/
def countDown (hi lo : Int) : List Int := (List.range (hi + 1 - lo).toNat).map fun k => hi - (k : Nat)

/-! ## One row -/

def rowCell (item : Item) (dp : List Int) (w : Int) : Option Int := do
  some (max (← Vec.at? dp w) ((← Vec.at? dp (w - item.weight)) + item.value))

def itemRow (capacity : Int) (dp : List Int) (item : Item) : Option (List Int) :=
  (countDown capacity item.weight).foldlM (Fill.step (fun dp w => Vec.write dp w.toNat) (rowCell item)) dp

def knapsackMaxValue (items : List Item) (capacity : Int) : Option Int := do
  let dp ← Vec.create (← CInt.fit (capacity + 1)) 0
  let dp ← items.foldlM (itemRow capacity) dp
  Vec.at? dp capacity

/-! ## The full table -/

/-- `dp[i][w]`. -/
def cellAt (dp : List (List Int)) (i : Nat) (w : Int) : Option Int := do Vec.at? (← dp[i]?) w

section
variable (items : List Item)

/-- The last of the values that `dp[i][w]` is given. -/
def tableCell (dp : List (List Int)) (c : Nat × Nat) : Option Int := do
  let skip ← cellAt dp (c.1 - 1) c.2
  let item ← items[c.1 - 1]?
  if item.weight ≤ c.2 then some (max skip ((← cellAt dp (c.1 - 1) (c.2 - item.weight)) + item.value))
  else some skip

def fillTable (n m : Nat) (dp : List (List Int)) : Option (List (List Int)) :=
  (List.range' 1 n).foldlM (fun dp i =>
    (List.range' 0 m).foldlM (fun dp w => Fill.step Fill.write (tableCell items) dp (i, w)) dp) dp

/-- The variables of the backtracking. -/
structure Back where
  w : Int
  selected : List Nat := []

def backRound (dp : List (List Int)) (s : Back) (i : Nat) : Option Back := do
  if (← cellAt dp i s.w) ≠ (← cellAt dp (i - 1) s.w) then
    some { w := s.w - (← items[i - 1]?).weight, selected := s.selected ++ [i - 1] }
  else some s

def knapsackWithItems (capacity : Int) : Option (Int × List Nat) := do
  let n := CInt.ofSize items.length
  let rows ← CInt.fit (n + 1)
  let columns ← CInt.fit (capacity + 1)
  let dp ← Vec.create rows (← Vec.create columns 0)
  let dp ← fillTable items n.toNat columns.toNat dp
  let s ← (List.range' 1 n.toNat).reverse.foldlM (backRound items dp) { w := capacity }
  some (← Vec.at? (← Vec.at? dp n) capacity, s.selected.reverse)

end

/-! ## Subsets of the items -/

def picked (items : List Item) (selected : List Nat) : List Item := selected.filterMap (items[·]?)

def totalWeight (l : List Item) : Int := (l.map Item.weight).sum

def totalValue (l : List Item) : Int := (l.map Item.value).sum

/-- A subset of the items, by its indices, that fits. -/
structure Fits (items : List Item) (capacity : Int) (selected : List Nat) : Prop where
  increasing : selected.Pairwise (· < ·)
  within : ∀ i ∈ selected, i < items.length
  weight : totalWeight (picked items selected) ≤ capacity

end Playground.Knapsack
