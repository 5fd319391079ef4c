import Playground.Lib.Inversions
import Playground.Lib.Loop
import Playground.Lib.Vec

/-!
# Merge sort (`dsa/merge_sort.cpp`)

Over any element type with its `operator<=`. Indexing outside the vector has no
result. Between `0 <= left` and `right < 2^31 - 1` no index overflows, and the
inversions, fewer than `2^61`, fit a `long long`; what may overflow is the last
index of the whole vector. The recursion is given a number of nested calls.
-/

namespace Playground.MergeSort

open Loop (Outcome)

variable {T : Type}

/-- The variables of `merge_and_count`. -/
structure Merge (T : Type) where
  i : Int
  j : Int
  temp : List T := []
  inversions : Int := 0

section
variable (le : T → T → Bool) (arr : List T)

def mergeRound (mid : Int) (s : Merge T) : Option (Merge T) := do
  let x ← Vec.at? arr s.i
  let y ← Vec.at? arr s.j
  if le x y then some { s with temp := s.temp ++ [x], i := s.i + 1 }
  else some { s with inversions := s.inversions + (mid - s.i + 1), temp := s.temp ++ [y], j := s.j + 1 }

def mergeBody (mid right : Int) (s : Merge T) : Outcome (Merge T) :=
  if s.i ≤ mid ∧ s.j ≤ right then .ofOption (mergeRound le arr mid s) else .exit

/-- `while (i <= last) temp.push_back(arr[i++])`. -/
def restBody (last : Int) (s : Int × List T) : Outcome (Int × List T) :=
  if s.1 ≤ last then .ofOption do
    some (s.1 + 1, s.2 ++ [← Vec.at? arr s.1])
  else .exit

/-- `std::copy` of a whole vector to `arr.begin() + left`. -/
def copyTo (temp : List T) (left : Int) : Option (List T) :=
  if 0 ≤ left ∧ left + temp.length ≤ arr.length then
    some (arr.take left.toNat ++ temp ++ arr.drop (left.toNat + temp.length))
  else none

def mergeAndCount (left mid right : Int) : Option (List T × Int) := do
  let rounds := arr.length + 1
  let s ← Loop.run (mergeBody le arr mid right) rounds { i := left, j := mid + 1 }
  let (_, temp) ← Loop.run (restBody arr mid) rounds (s.i, s.temp)
  let (_, temp) ← Loop.run (restBody arr right) rounds (s.j, temp)
  some (← copyTo arr temp left, s.inversions)

end

def mergeSortRange (le : T → T → Bool) : Nat → List T → Int → Int → Option (List T × Int)
  | 0, _, _, _ => none
  | fuel + 1, arr, left, right =>
    if right ≤ left then some (arr, 0)
    else do
      let mid := left + (right - left).tdiv 2
      let (arr, inversions) ← mergeSortRange le fuel arr left mid
      let (arr, inversions') ← mergeSortRange le fuel arr (mid + 1) right
      let (arr, inversions'') ← mergeAndCount le arr left mid right
      some (arr, inversions + inversions' + inversions'')

def mergeSort (fuel : Nat) (le : T → T → Bool) (arr : List T) : Option (List T × Int) := do
  if arr.isEmpty then some (arr, 0)
  else mergeSortRange le fuel arr 0 (← CInt.fit (CInt.ofSize arr.length - 1))

/-! ## What sorting is -/

/-- The sorted permutation that keeps equivalent elements in order. -/
structure StablySorts (le : T → T → Bool) (out arr : List T) : Prop where
  perm : out.Perm arr
  sorted : out.Pairwise fun x y => le x y
  stable : ∀ x, out.filter (fun y => le x y && le y x) = arr.filter fun y => le x y && le y x

end Playground.MergeSort
