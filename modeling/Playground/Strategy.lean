import Playground.Lib.CInt
import Playground.Lib.Loop
import Playground.Lib.Sorting

/-!
# Sorting strategies (`patterns/strategy.cpp`)

Three algorithms behind one interface. An index outside the vector, and an
`int` that overflows, is `none`. `BubbleSort` and `MergeSort` count in
`size_t`, `QuickSort` in `int`.
-/

namespace Playground.Strategy

open Loop (Outcome)
open Sorting (swap)

/-! ## Bubble sort -/

namespace BubbleSort

structure Pass where
  data : List Int
  k : Nat := 0

def inner (i : Nat) (s : Pass) : Outcome Pass :=
  if s.k + 1 < s.data.length - i then .ofOption do
    let x ← s.data[s.k]?
    let y ← s.data[s.k + 1]?
    let data ← if x > y then swap s.data s.k (s.k + 1) else some s.data
    some { data, k := s.k + 1 }
  else .exit

def outer (s : Pass) : Outcome Pass :=
  if s.k < s.data.length then .ofOption do
    let t ← Loop.run (inner s.k) (s.data.length + 1) { data := s.data }
    some { data := t.data, k := s.k + 1 }
  else .exit

def sort (data : List Int) : Option (List Int) := do
  let s ← Loop.run outer (data.length + 1) { data }
  some s.data

end BubbleSort

/-! ## Quicksort -/

namespace QuickSort

/-- `d[i]`: a negative `int` converts to a size past the end. -/
def elem (d : List Int) (i : Int) : Option Int := if 0 ≤ i then d[i.toNat]? else none

def swap (d : List Int) (i j : Int) : Option (List Int) :=
  if 0 ≤ i ∧ 0 ≤ j then Sorting.swap d i.toNat j.toNat else none

structure Scan where
  d : List Int
  i : Int
  j : Int

def scan (pivot hi : Int) (s : Scan) : Outcome Scan :=
  if s.j < hi then .ofOption do
    let x ← elem s.d s.j
    if x < pivot then
      let d ← swap s.d s.i s.j
      some { d, i := ← CInt.fit (s.i + 1), j := ← CInt.fit (s.j + 1) }
    else some { s with j := ← CInt.fit (s.j + 1) }
  else .exit

/-- `none` also when `n` calls do not suffice. -/
def qsort : Nat → List Int → Int → Int → Option (List Int)
  | 0, _, _, _ => none
  | n + 1, d, lo, hi =>
    if lo ≥ hi then some d else do
      let pivot ← elem d hi
      let s ← Loop.run (scan pivot hi) (n + 1) { d, i := lo, j := lo }
      let d ← swap s.d s.i hi
      let d ← qsort n d lo (← CInt.fit (s.i - 1))
      qsort n d (← CInt.fit (s.i + 1)) hi

def sort (data : List Int) : Option (List Int) :=
  if data.isEmpty then some data else do
    let hi ← CInt.fit (CInt.ofSize data.length - 1)
    qsort (data.length + 1) data 0 hi

end QuickSort

/-! ## Merge sort -/

namespace MergeSort

/-- `std::merge`, which is undefined on ranges that are not sorted, into a
vector: what it writes must fit. -/
def merge (left right data : List Int) : Option (List Int) :=
  let merged := List.merge left right (· ≤ ·)
  if left.Pairwise (· ≤ ·) ∧ right.Pairwise (· ≤ ·) ∧ merged.length ≤ data.length then
    some (merged ++ data.drop merged.length)
  else none

def sortRec : Nat → List Int → Option (List Int)
  | 0, _ => none
  | n + 1, data =>
    if data.length ≤ 1 then some data else do
      let mid := data.length / 2
      let left ← sortRec n (data.take mid)
      let right ← sortRec n (data.drop mid)
      merge left right data

def sort (data : List Int) : Option (List Int) := sortRec (data.length + 1) data

end MergeSort

/-! ## The interface -/

inductive SortStrategy
  | bubbleSort
  | quickSort
  | mergeSort
  deriving DecidableEq, Repr

def SortStrategy.sort : SortStrategy → List Int → Option (List Int)
  | .bubbleSort => BubbleSort.sort
  | .quickSort => QuickSort.sort
  | .mergeSort => MergeSort.sort

end Playground.Strategy
