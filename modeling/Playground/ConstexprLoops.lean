import Mathlib.Data.Nat.Factorial.Basic
import Mathlib.Data.Nat.Fib.Basic
import Playground.Lib.CInt
import Playground.Lib.Loop

/-!
# Loops at compile time (`modern_cpp/constexpr_consteval.cpp`, `modern_cpp/practical/compile_time_programming.cpp`)

`fibonacci` is written twice, with an `int` and with a `long long`: `fit` gives
the values of the type. An overflow has no result, and where the result is
wanted at compile time it is an error.
-/

namespace Playground.ConstexprLoops

open scoped Nat

/-- The value of a `long long` expression. -/
def fitLong (x : Int) : Option Int := if -2 ^ 63 ≤ x ∧ x < 2 ^ 63 then some x else none

/-- One round of `fibonacci`: `a` and `b`. -/
def fibonacciRound (fit : Int → Option Int) (s : Int × Int) (_ : Nat) : Option (Int × Int) := do
  let tmp ← fit (s.1 + s.2)
  some (s.2, tmp)

def fibonacci (fit : Int → Option Int) (n : Int) : Option Int :=
  if n ≤ 1 then some n
  else do
    let (_, b) ← (List.range' 2 (n - 1).toNat).foldlM (fibonacciRound fit) (0, 1)
    some b

def generateFibTable : Option (List Int) := (List.range 20).mapM fun i : Nat => fibonacci CInt.fit i

def factorialRound (result : Int) (i : Nat) : Option Int := CInt.fit (result * i)

def factorial (n : Int) : Option Int := (List.range' 2 (n - 1).toNat).foldlM factorialRound 1

def generateSquares : Option (List Int) := (List.range 16).mapM fun i : Nat => CInt.fit (i * i : Int)

/-! ## Fibonacci numbers -/

section
variable {fit : Int → Option Int} {bound : Nat}
    (hfit : ∀ {x y : Int}, fit x = some y ↔ (-bound ≤ x ∧ x < bound) ∧ x = y)

include hfit

theorem fibonacciRound_iff {i j : Nat} {t : Int × Int} :
    fibonacciRound fit ((i.fib : Int), ((i + 1).fib : Int)) j = some t ↔
    (i + 2).fib < bound ∧ (((i + 1).fib : Int), ((i + 2).fib : Int)) = t := by
  rw [fibonacciRound, Option.bind_eq_bind, Option.bind_eq_some_iff, Nat.fib_add_two, Nat.cast_add]
  simp only [hfit, Option.some_inj]
  constructor
  · rintro ⟨_, ⟨⟨_, hlt⟩, rfl⟩, ht⟩
    exact ⟨by omega, ht⟩
  · rintro ⟨hlt, ht⟩
    exact ⟨_, ⟨⟨by omega, by omega⟩, rfl⟩, ht⟩

/-- The last number is the greatest, so that it alone decides. -/
theorem fibonacci_iff {n m : Int} (hn : 1 < n) :
    fibonacci fit n = some m ↔ n.toNat.fib < bound ∧ (n.toNat.fib : Int) = m := by
  obtain ⟨k, rfl⟩ : ∃ k : Nat, n = k + 2 := ⟨(n - 2).toNat, by omega⟩
  have hrun :=
    fun t => Loop.forEach_iff (l := List.range' 2 (k + 1)) (s := fun i => ((i.fib : Int), ((i + 1).fib : Int)))
    (fun i _ t => fibonacciRound_iff hfit (i := i) (t := t)) (t := t)
  simp only [List.length_range'] at hrun
  rw [fibonacci, if_neg (by omega), show ((k : Int) + 2 - 1).toNat = k + 1 by omega,
    show ((k : Int) + 2).toNat = k + 2 by omega, Option.bind_eq_bind, Option.bind_eq_some_iff]
  constructor
  · rintro ⟨t, ht, hm⟩
    obtain ⟨hall, rfl⟩ := (hrun t).mp ht
    exact ⟨hall k (Nat.lt_succ_self k), Option.some_inj.mp hm⟩
  · rintro ⟨hlt, hm⟩
    refine ⟨_, (hrun _).mpr ⟨fun i hi => Nat.lt_of_le_of_lt (Nat.fib_mono (by omega)) hlt, rfl⟩, congrArg some hm⟩

/-- `last` is the last index with a number that fits. -/
theorem fibonacci_eq_some_iff {last : Nat} (hlast : last.fib < bound) (hnext : bound ≤ (last + 1).fib) (n m : Int) :
    fibonacci fit n = some m ↔ n ≤ 1 ∧ m = n ∨ 1 < n ∧ n ≤ last ∧ m = n.toNat.fib := by
  rcases Int.lt_or_le 1 n with hn | hn
  · rw [fibonacci_iff hfit hn]
    have hle : n.toNat.fib < bound ↔ n ≤ last := by
      constructor
      · intro h
        by_contra hgt
        have := Nat.fib_mono (show last + 1 ≤ n.toNat by omega)
        omega
      · intro h
        exact Nat.lt_of_le_of_lt (Nat.fib_mono (by omega)) hlast
    rw [hle]
    constructor
    · rintro ⟨h, rfl⟩
      exact .inr ⟨hn, h, rfl⟩
    · rintro (⟨h, _⟩ | ⟨_, h, rfl⟩)
      · omega
      · exact ⟨h, rfl⟩
  · rw [fibonacci, if_pos hn, Option.some_inj]
    constructor
    · rintro rfl
      exact .inl ⟨hn, rfl⟩
    · rintro (⟨_, rfl⟩ | ⟨h, _⟩)
      · rfl
      · omega

end

/-! ## Factorials -/

theorem factorialRound_iff {i : Nat} {t : Int} : factorialRound ((i + 1)! : Nat) (2 + i) = some t ↔
    (i + 2)! < 2 ^ 31 ∧ (((i + 2)! : Nat) : Int) = t := by
  have hmul : (((i + 1)! : Nat) : Int) * ((2 + i : Nat) : Int) = ((i + 2)! : Nat) := by
    rw [← Nat.cast_mul, Nat.factorial_succ (i + 1), Nat.mul_comm, Nat.add_comm 2]
  rw [factorialRound, hmul, CInt.fit_iff]
  refine and_congr_left fun _ => ?_
  omega

theorem factorial_eq_some_iff (n m : Int) : factorial n = some m ↔ n ≤ 12 ∧ m = (n.toNat ! : Nat) := by
  have hrun := Loop.forEach_iff (l := List.range' 2 (n - 1).toNat) (s := fun i => (((i + 1)! : Nat) : Int))
    (fun i hi t => by
      rw [List.getElem_range', Nat.one_mul]
      exact factorialRound_iff) (t := m)
  simp only [List.length_range'] at hrun
  have hlast : (((n - 1).toNat + 1)! : Nat) = n.toNat ! := by
    rcases Int.lt_or_le 0 n with hn | hn
    · rw [show (n - 1).toNat + 1 = n.toNat by omega]
    · rw [show (n - 1).toNat = 0 by omega, show n.toNat = 0 by omega]
      rfl
  rw [hlast] at hrun
  refine hrun.trans (and_congr ?_ eq_comm)
  have h12 : (12)! < 2 ^ 31 := by decide
  have h13 : 2 ^ 31 ≤ (13)! := by decide
  constructor
  · intro h
    by_contra hgt
    exact absurd (h 11 (by omega)) (Nat.not_lt_of_le h13)
  · intro hn i hi
    exact Nat.lt_of_le_of_lt (Nat.factorial_le (by omega)) h12

/-! ## The types and the tables -/

theorem fit_int {x y : Int} : CInt.fit x = some y ↔ (-((2 ^ 31 : Nat) : Int) ≤ x ∧ x < (2 ^ 31 : Nat)) ∧ x = y := by
  rw [CInt.fit_iff]
  rfl

theorem fit_long {x y : Int} : fitLong x = some y ↔ (-((2 ^ 63 : Nat) : Int) ≤ x ∧ x < (2 ^ 63 : Nat)) ∧ x = y := by
  simp only [fitLong, Option.ite_none_right_eq_some, Option.some_inj]
  rfl

theorem fibonacci_int_iff (n m : Int) :
    fibonacci CInt.fit n = some m ↔ n ≤ 1 ∧ m = n ∨ 1 < n ∧ n ≤ 46 ∧ m = n.toNat.fib := by
  have h46 : (46).fib < 2 ^ 31 ∧ 2 ^ 31 ≤ (47).fib := by decide
  exact fibonacci_eq_some_iff fit_int h46.1 h46.2 n m

theorem mapM_eq_map {f : Nat → Option Int} {g : Nat → Int} {l : List Nat} (h : ∀ i ∈ l, f i = some (g i)) :
    l.mapM f = some (l.map g) := by
  induction l with
  | nil => rfl
  | cons i l ih =>
    rw [List.mapM_cons, h i List.mem_cons_self, ih fun j hj => h j (List.mem_cons_of_mem i hj)]
    rfl

theorem generateFibTable_eq : generateFibTable = some ((List.range 20).map fun i => (i.fib : Int)) := by
  refine mapM_eq_map fun i hi => ?_
  have hlt := List.mem_range.mp hi
  rw [fibonacci_int_iff]
  rcases Nat.lt_or_ge 1 i with hone | hone
  · exact .inr ⟨by omega, by omega, rfl⟩
  · refine .inl ⟨by omega, ?_⟩
    obtain rfl | rfl : i = 0 ∨ i = 1 := by omega
    · rfl
    · rfl

theorem generateSquares_eq : generateSquares = some ((List.range 16).map fun i : Nat => (i * i : Int)) := by
  refine mapM_eq_map fun i hi => ?_
  have hlt := List.mem_range.mp hi
  have hle : i * i ≤ 15 * 15 := Nat.mul_le_mul (by omega) (by omega)
  rw [← Nat.cast_mul]
  exact CInt.fit_natCast (by omega)

example :
    generateFibTable.map (·[15]?) = some (some 610) ∧ generateSquares.map (·[10]?) = some (some 100) := by decide

/-- Up to the last index whose value fits the type, and no further, the loops compute what they are named after; a
`fibonacci` of at most 1 is its argument. -/
theorem loops_eq_some_iff (n m : Int) :
    (fibonacci CInt.fit n = some m ↔ n ≤ 1 ∧ m = n ∨ 1 < n ∧ n ≤ 46 ∧ m = n.toNat.fib) ∧
      (fibonacci fitLong n = some m ↔ n ≤ 1 ∧ m = n ∨ 1 < n ∧ n ≤ 92 ∧ m = n.toNat.fib) ∧
      (factorial n = some m ↔ n ≤ 12 ∧ m = (n.toNat ! : Nat)) := by
  have h92 : (92).fib < 2 ^ 63 ∧ 2 ^ 63 ≤ (93).fib := by decide
  exact ⟨fibonacci_int_iff n m, fibonacci_eq_some_iff fit_long h92.1 h92.2 n m, factorial_eq_some_iff n m⟩

end Playground.ConstexprLoops
