import Mathlib.Algebra.Group.Nat.Defs
import Mathlib.Logic.Basic

/-!
# Rounding up to an alignment

`roundUp n a` is the least multiple of `a` that is not below `n`. For a power
of two it is what `(n + a - 1) & ~(a - 1)` computes, in arithmetic modulo the
word size.
-/

namespace Align

def roundUp (n a : Nat) : Nat := (n + a - 1) / a * a

variable {n m a k : Nat}

theorem dvd_roundUp (n a : Nat) : a ∣ roundUp n a := Nat.dvd_mul_left a _

theorem le_roundUp (ha : 0 < a) : n ≤ roundUp n a := by
  have h := Nat.lt_div_mul_add (a := n + a - 1) ha
  unfold roundUp
  omega

theorem roundUp_lt (ha : 0 < a) : roundUp n a < n + a := by
  have h := Nat.div_mul_le_self (n + a - 1) a
  unfold roundUp
  omega

/-! ## In 64 bits -/

theorem toNat_and_mask (x : UInt64) {a : UInt64} (hk : k < 64) (ha : a.toNat = 2 ^ k) :
    (x &&& ~~~(a - 1)).toNat = x.toNat / 2 ^ k * 2 ^ k := by
  have hpos : 0 < 2 ^ k := Nat.two_pow_pos k
  have hpow : 2 ^ k < 2 ^ 64 := Nat.pow_lt_pow_right (by decide) hk
  have hone : (a - 1).toNat = 2 ^ k - 1 := by
    rw [UInt64.toNat_sub_of_le _ _ (by rw [UInt64.le_iff_toNat_le, ha]; exact hpos), ha]
    rfl
  have hmask : (~~~(a - 1)).toNat = 2 ^ 64 - (2 ^ k - 1 + 1) := by
    rw [UInt64.toNat_not, hone]
    exact Nat.sub_sub (2 ^ 64) 1 (2 ^ k - 1) ▸ by omega
  rw [UInt64.toNat_and, hmask]
  apply Nat.eq_of_testBit_eq
  intro i
  rw [Nat.testBit_and, Nat.testBit_two_pow_sub_succ (by omega), Nat.testBit_two_pow_sub_one,
    Nat.testBit_mul_two_pow, Nat.testBit_div_two_pow]
  by_cases hki : k ≤ i
  · rw [Nat.sub_add_cancel hki]
    by_cases hi : i < 64
    · simp [hki, hi]
    · have hbit : x.toNat.testBit i = false :=
        Nat.testBit_lt_two_pow
          (Nat.lt_of_lt_of_le x.toNat_lt (Nat.pow_le_pow_right (by decide) (Nat.le_of_not_lt hi)))
      simp [hbit]
  · simp [hki, Nat.lt_of_not_le hki]

theorem toNat_roundUp (n : UInt64) {a : UInt64} (hk : k < 64) (ha : a.toNat = 2 ^ k) :
    ((n + a - 1) &&& ~~~(a - 1)).toNat = roundUp n.toNat a.toNat % 2 ^ 64 := by
  have hpos : 0 < a.toNat := ha ▸ Nat.two_pow_pos k
  have hsum : (n + a - 1).toNat = (n.toNat + a.toNat - 1) % 2 ^ 64 := by
    rw [UInt64.toNat_sub, UInt64.toNat_add]
    show (2 ^ 64 - 1 + (n.toNat + a.toNat) % 2 ^ 64) % 2 ^ 64 = _
    omega
  have hdvd : 2 ^ k ∣ 2 ^ 64 := Nat.pow_dvd_pow 2 (Nat.le_of_lt hk)
  rw [toNat_and_mask _ hk ha, hsum, roundUp, ha]
  obtain ⟨c, hc⟩ := hdvd
  rw [hc, Nat.mod_mul_right_div_self, Nat.mul_comm (2 ^ k) c, Nat.mul_mod_mul_right]

end Align
