import Mathlib.Algebra.Group.Int.Defs
import Mathlib.Algebra.Group.Nat.Defs

/-!
# The 32-bit `int`

Arithmetic on it is that of the integers as long as the result fits; a result
that does not fit is an overflow, which has no meaning. A conversion from a
wider type wraps.
-/

namespace CInt

/-- The value of an `int` expression; `none` for an overflow. -/
def fit (x : Int) : Option Int := if -2 ^ 31 ≤ x ∧ x < 2 ^ 31 then some x else none

theorem fit_of {x : Int} (h : -2 ^ 31 ≤ x) (h' : x < 2 ^ 31) : fit x = some x := if_pos ⟨h, h'⟩

theorem fit_natCast {n : Nat} (h : n < 2 ^ 31) : fit n = some (n : Int) := fit_of (by omega) (by omega)

theorem fit_succ {n : Nat} (h : n + 1 < 2 ^ 31) : fit ((n : Int) + 1) = some ((n + 1 : Nat) : Int) := fit_natCast h

theorem fit_of_lt {x : Int} (h : x < -2 ^ 31) : fit x = none := if_neg fun hx => absurd hx.1 (by omega)

theorem fit_of_le {x : Int} (h : 2 ^ 31 ≤ x) : fit x = none := if_neg fun hx => absurd hx.2 (by omega)

theorem fit_eq_some {x y : Int} (h : fit x = some y) : y = x ∧ -2 ^ 31 ≤ x ∧ x < 2 ^ 31 := by
  simp only [fit, Option.ite_none_right_eq_some, Option.some.injEq] at h
  exact ⟨h.2.symm, h.1⟩

theorem fit_iff {x y : Int} : fit x = some y ↔ (-2 ^ 31 ≤ x ∧ x < 2 ^ 31) ∧ x = y := by
  simp only [fit, Option.ite_none_right_eq_some, Option.some.injEq]

def ofSize (n : Nat) : Int := Int.bmod n (2 ^ 32)

theorem ofSize_of_lt {n : Nat} (h : n < 2 ^ 31) : ofSize n = n := by
  unfold ofSize
  rw [Int.bmod_def]
  omega

theorem ofSize_of_le {n : Nat} (h : 2 ^ 31 ≤ n) (h' : n < 2 ^ 32) : ofSize n = n - 2 ^ 32 := by
  unfold ofSize
  rw [Int.bmod_def]
  omega

theorem ofSize_neg {n : Nat} (h : n = 2 ^ 31) : ofSize n < 0 := by
  rw [ofSize_of_le (by omega) (by omega)]
  omega

theorem ofSize_of_wrap {m n : Nat} (hm : m = n + 2 ^ 32) (h : n < 2 ^ 31) : ofSize m = n := by
  unfold ofSize
  rw [Int.bmod_def]
  omega

theorem le_ofSize (n : Nat) : -2 ^ 31 ≤ ofSize n := by
  unfold ofSize
  rw [Int.bmod_def]
  omega

theorem ofSize_lt (n : Nat) : ofSize n < 2 ^ 31 := by
  unfold ofSize
  rw [Int.bmod_def]
  omega

theorem ofSize_le (n : Nat) : ofSize n ≤ n := by
  unfold ofSize
  rw [Int.bmod_def]
  omega

end CInt
