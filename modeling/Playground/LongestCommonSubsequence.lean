import Playground.Lib.Fill
import Playground.Lib.Loop

/-!
# Longest common subsequence (`dsa/longest_common_subsequence.cpp`)

Strings are lists over any type of characters. The lengths are converted to
`int`, so `m + 1` may overflow; an index outside a table or a string has no
result.
-/

namespace Playground.LongestCommonSubsequence

open Loop (Outcome)

variable {α : Type} [DecidableEq α]

/-! ## The full table -/

section
variable (a b : List α)

/-- What is written to `dp[i][j]`. -/
def tableCell (dp : List (List Int)) (c : Nat × Nat) : Option Int := do
  if (← a[c.1 - 1]?) = (← b[c.2 - 1]?) then CInt.fit ((← Fill.read dp (c.1 - 1, c.2 - 1)) + 1)
  else some (max (← Fill.read dp (c.1 - 1, c.2)) (← Fill.read dp (c.1, c.2 - 1)))

def fillTable (m n : Nat) (dp : List (List Int)) : Option (List (List Int)) :=
  (List.range' 1 m).foldlM (fun dp i =>
    (List.range' 1 n).foldlM (fun dp j => Fill.step Fill.write (tableCell a b) dp (i, j)) dp) dp

/-- The variables of the backtracking. -/
structure Back (α : Type) where
  i : Nat
  j : Nat
  result : List α := []

def backRound (dp : List (List Int)) (s : Back α) : Option (Back α) := do
  let x ← a[s.i - 1]?
  if x = (← b[s.j - 1]?) then some { i := s.i - 1, j := s.j - 1, result := s.result ++ [x] }
  else if (← Fill.read dp (s.i - 1, s.j)) > (← Fill.read dp (s.i, s.j - 1)) then some { s with i := s.i - 1 }
  else some { s with j := s.j - 1 }

def backBody (dp : List (List Int)) (s : Back α) : Outcome (Back α) :=
  if 0 < s.i ∧ 0 < s.j then .ofOption (backRound a b dp s) else .exit

/-- No loop is entered with a negative bound, so that these are counted from `m.toNat` and `n.toNat`. -/
def lcsWithSequence : Option (List α) := do
  let m := CInt.ofSize a.length
  let n := CInt.ofSize b.length
  let rows ← CInt.fit (m + 1)
  let dp ← Vec.create rows (← Vec.create (← CInt.fit (n + 1)) 0)
  let dp ← fillTable a b m.toNat n.toNat dp
  let s ← Loop.run (backBody a b dp) (m.toNat + n.toNat + 1) { i := m.toNat, j := n.toNat }
  some s.result.reverse

end

/-! ## Two rows -/

/-- What is written to `curr[j]`. -/
def rowCell (b : List α) (ca : α) (prev curr : List Int) (j : Nat) : Option Int := do
  if ca = (← b[j - 1]?) then CInt.fit ((← prev[j - 1]?) + 1)
  else some (max (← prev[j]?) (← curr[j - 1]?))

/-- The rows are swapped once `curr` is filled, and then `curr` is cleared. -/
def nextRow (b : List α) (n : Nat) (rows : List Int × List Int) (ca : α) : Option (List Int × List Int) := do
  let curr ← (List.range' 1 n).foldlM (Fill.step Vec.write (rowCell b ca rows.1)) rows.2
  some (curr, List.replicate rows.1.length 0)

/-- With the shorter string second. -/
def lengthOfRows (a b : List α) : Option Int := do
  let n := CInt.ofSize b.length
  let prev ← Vec.create (← CInt.fit (n + 1)) 0
  let curr ← Vec.create (← CInt.fit (n + 1)) 0
  let (prev, _) ← a.foldlM (nextRow b n.toNat) (prev, curr)
  Vec.at? prev n

def lcsLength (a b : List α) : Option Int := if a.length < b.length then lengthOfRows b a else lengthOfRows a b

end Playground.LongestCommonSubsequence
