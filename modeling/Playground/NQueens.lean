import Playground.Lib.CInt
import Playground.Lib.Machine

/-!
# The N-queens solver (`dsa/backtracking_nqueens.cpp`)

`n_` and the width `W` of the three masks are parameters; the masks of the
program have 32 bits. The indices of the diagonals are computed in `int`. A
shift by less than zero or by `W` and more is undefined.
-/

namespace Playground.NQueens

/-- What has no meaning: an `int` that overflows, or a shift out of range. -/
inductive Fault
  | overflow
  | shift
  deriving DecidableEq

structure NQueensSolver (W n : Nat) where
  queens : List Nat
  solutions : List (List Nat) := []
  count : Nat := 0
  cols : BitVec W := 0
  diag1 : BitVec W := 0
  diag2 : BitVec W := 0
  deriving DecidableEq

def construct (W n : Nat) : NQueensSolver W n := { queens := List.replicate n 0 }

section
variable {W n : Nat}

def int (x : Int) : Except Fault Int :=
  match CInt.fit x with
  | some x => .ok x
  | none => .error .overflow

/-- `1u << s`. -/
def bit (W : Nat) (s : Int) : Except Fault (BitVec W) :=
  if 0 ≤ s ∧ s < W then .ok (BitVec.twoPow W s.toNat) else .error .shift

/-- The three shifts of `is_safe`, `place` and `remove`. -/
def bits (W n row col : Nat) : Except Fault (BitVec W × BitVec W × BitVec W) := do
  let c ← bit W col
  let d1 ← bit W (← int ((← int ((← int (row - col)) + n)) - 1))
  let d2 ← bit W (← int (row + col))
  .ok (c, d1, d2)

def isSafe (s : NQueensSolver W n) (row col : Nat) : Except Fault Bool := do
  let (c, d1, d2) ← bits W n row col
  .ok (s.cols &&& c == 0 && s.diag1 &&& d1 == 0 && s.diag2 &&& d2 == 0)

def place (s : NQueensSolver W n) (row col : Nat) : Except Fault (NQueensSolver W n) := do
  let (c, d1, d2) ← bits W n row col
  .ok { s with
    queens := s.queens.set row col
    cols := s.cols ||| c
    diag1 := s.diag1 ||| d1
    diag2 := s.diag2 ||| d2 }

def remove (s : NQueensSolver W n) (row col : Nat) : Except Fault (NQueensSolver W n) := do
  let (c, d1, d2) ← bits W n row col
  .ok { s with cols := s.cols ^^^ c, diag1 := s.diag1 ^^^ d1, diag2 := s.diag2 ^^^ d2 }

/-- One round of the loop over the columns; `next` is the call for the next row. -/
def tryColumn (next : NQueensSolver W n → Except Fault (NQueensSolver W n)) (row : Nat) (s : NQueensSolver W n)
    (col : Nat) : Except Fault (NQueensSolver W n) := do
  if ← isSafe s row col then
    let s ← place s row col -- choose
    let s ← next s -- explore
    remove s row col -- unchoose
  else .ok s

/-- The recursion that `backtrack` and `count_backtrack` share, with `left = n_ - row` rows to go; `record` is what
is done with a board that is full. -/
def search (record : NQueensSolver W n → NQueensSolver W n) :
    Nat → Nat → NQueensSolver W n → Except Fault (NQueensSolver W n)
  | 0, _, s => .ok (record s)
  | left + 1, row, s => (List.range n).foldlM (tryColumn (search record left (row + 1)) row) s

def backtrack (s : NQueensSolver W n) : Except Fault (NQueensSolver W n) :=
  search (fun s => { s with solutions := s.solutions ++ [s.queens] }) n 0 s

def countBacktrack (s : NQueensSolver W n) : Except Fault (NQueensSolver W n) :=
  search (fun s => { s with count := s.count + 1 }) n 0 s

def solveAll (s : NQueensSolver W n) : Except Fault (NQueensSolver W n × List (List Nat)) := do
  let s ← backtrack { s with solutions := [], cols := 0, diag1 := 0, diag2 := 0 }
  .ok (s, s.solutions)

def countSolutions (s : NQueensSolver W n) : Except Fault (NQueensSolver W n × Nat) := do
  let s ← countBacktrack { s with count := 0, cols := 0, diag1 := 0, diag2 := 0 }
  .ok (s, s.count)

/-! ## Calls -/

inductive Call
  | solveAll
  | countSolutions

inductive Answer
  | boards (l : List (List Nat))
  | number (k : Nat)

def perform (s : NQueensSolver W n) : Call → Except Fault (NQueensSolver W n × Answer)
  | .solveAll => do
    let (s, l) ← NQueens.solveAll s
    .ok (s, .boards l)
  | .countSolutions => do
    let (s, k) ← NQueens.countSolutions s
    .ok (s, .number k)

def solver (W n : Nat) : Machine (NQueensSolver W n) Call Answer where
  init := construct W n
  step s c := (perform s c).toOption

end

end Playground.NQueens
