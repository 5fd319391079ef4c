import Mathlib.Algebra.Order.Field.Rat
import Mathlib.Data.Int.Log
import Mathlib.Data.Rat.Floor
import Mathlib.Tactic.Linarith
import Mathlib.Tactic.Positivity

/-!
# Single-precision rounding

Rounding a rational number to 24 significant bits, to nearest with ties to
even: the result of a single-precision operation whose exact result `x` is
zero or has a magnitude from `2 ^ (-126)` up to where rounding overflows.
-/

namespace Binary32

/-- The nearest integer, ties to even. -/
def roundInt (t : ℚ) : ℤ :=
  let r := t - ⌊t⌋
  if r < 1 / 2 then ⌊t⌋
  else if 1 / 2 < r then ⌊t⌋ + 1
  else if Even ⌊t⌋ then ⌊t⌋
  else ⌊t⌋ + 1

/-- The spacing of the numbers around `x` that have 24 significant bits. -/
def quantum (x : ℚ) : ℚ := 2 ^ (Int.log 2 |x| - 23)

def round (x : ℚ) : ℚ := roundInt (x / quantum x) * quantum x

/-! ## To an integer -/

theorem roundInt_intCast (n : ℤ) : roundInt n = n := by simp [roundInt]

theorem roundInt_cases (t : ℚ) : (roundInt t = ⌊t⌋ ∧ t ≤ ⌊t⌋ + 1 / 2) ∨
    (roundInt t = ⌊t⌋ + 1 ∧ ⌊t⌋ + 1 / 2 ≤ t ∧ (t = ⌊t⌋ + 1 / 2 → ¬ Even ⌊t⌋)) := by
  unfold roundInt
  dsimp only
  split_ifs with h₁ h₂ h₃
  · exact .inl ⟨rfl, by linarith⟩
  · exact .inr ⟨rfl, by linarith, fun h => absurd h (by linarith)⟩
  · exact .inl ⟨rfl, by linarith⟩
  · exact .inr ⟨rfl, by linarith, fun _ => h₃⟩

theorem lt_roundInt {t : ℚ} {n : ℤ} (h : n + 1 / 2 < t) : n < roundInt t := by
  have hfl : n ≤ ⌊t⌋ := by
    rw [Int.le_floor]
    linarith
  rcases roundInt_cases t with ⟨hr, hle⟩ | ⟨hr, -⟩
  · rcases Int.lt_or_eq_of_le hfl with hlt | heq
    · omega
    · rw [← heq] at hle
      linarith
  · omega

theorem quantum_pos (x : ℚ) : 0 < quantum x := zpow_pos (by norm_num) _

theorem quantum_eq {x : ℚ} {e : ℤ} (h₁ : 2 ^ e ≤ x) (h₂ : x < 2 ^ (e + 1)) : quantum x = 2 ^ (e - 23) := by
  have hx : 0 < x := lt_of_lt_of_le (zpow_pos (by norm_num) e) h₁
  have hlo := (Int.zpow_le_iff_le_log (b := 2) (by decide) hx).mp (by simpa using h₁)
  have hhi := (Int.lt_zpow_iff_log_lt (b := 2) (by decide) hx).mp (by simpa using h₂)
  rw [quantum, abs_of_pos hx, show Int.log 2 x = e by omega]

theorem round_eq_self {x : ℚ} {n : ℤ} (h : x = n * quantum x) : round x = x := by
  have hdiv : x / quantum x = n := by
    rw [div_eq_iff (quantum_pos x).ne']
    exact h
  rw [round, hdiv, roundInt_intCast]
  exact h.symm

theorem round_natCast {n : Nat} (hn : n < 2 ^ 24) : round n = n := by
  have hlog : Nat.log 2 n ≤ 23 := Nat.lt_succ_iff.mp (Nat.log_lt_of_lt_pow' (by decide) hn)
  apply round_eq_self (n := n * 2 ^ (23 - Nat.log 2 n))
  rw [quantum, abs_of_nonneg (Nat.cast_nonneg n), Int.log_natCast]
  push_cast
  rw [mul_assoc, ← zpow_natCast, ← zpow_add₀ (by norm_num)]
  rw [show ((23 - Nat.log 2 n : Nat) : ℤ) + ((Nat.log 2 n : ℤ) - 23) = 0 by omega, zpow_zero, mul_one]

section
variable {x : ℚ} {n : ℤ}

theorem round_of_half_le (h₁ : 1 / 2 ≤ x) (h₂ : x < 1) : round x = roundInt (x * 2 ^ 24) / 2 ^ 24 := by
  have hq : quantum x = (2 ^ 24)⁻¹ := by
    rw [quantum_eq (e := -1) (by norm_num; linarith) (by norm_num; linarith)]
    norm_num
  rw [round, hq, div_inv_eq_mul, div_eq_mul_inv]

theorem lt_round (h₁ : 1 / 2 ≤ x) (h₂ : x < 1) (h : n + 1 / 2 < x * 2 ^ 24) : n / 2 ^ 24 < round x := by
  rw [round_of_half_le h₁ h₂]
  apply div_lt_div_of_pos_right _ (by norm_num)
  exact_mod_cast lt_roundInt h

end

end Binary32
