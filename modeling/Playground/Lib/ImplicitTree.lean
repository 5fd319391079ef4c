import Mathlib.Data.Nat.Basic
import Mathlib.Tactic.Ring

/-!
# Binary trees in an array

The root has number 1 and the children of node `i` have numbers `2 * i` and
`2 * i + 1`. A tree over an interval of `n` indices, in which every node
halves its interval, needs fewer than `4 * n` numbers.
-/

namespace ImplicitTree

/-- `m` is the number of a node in the subtree of `i`. -/
def Below (i m : Nat) : Prop := ∃ k, m / 2 ^ k = i

variable {i j m n len : Nat}

theorem Below.refl (i : Nat) : Below i i := ⟨0, by simp⟩

theorem Below.le (h : Below i m) : i ≤ m := by
  obtain ⟨k, rfl⟩ := h
  exact Nat.div_le_self m _

theorem Below.parent (h : Below j m) (hj : j / 2 = i) : Below i m := by
  obtain ⟨k, rfl⟩ := h
  exact ⟨k + 1, by rw [pow_succ, ← Nat.div_div_eq_div_mul, hj]⟩

theorem Below.of_left (h : Below (2 * i) m) : Below i m := h.parent (by omega)

theorem Below.of_right (h : Below (2 * i + 1) m) : Below i m := h.parent (by omega)

theorem Below.ne_of_left (h : Below (2 * i) m) (hi : 0 < i) : i ≠ m := by
  have hle := h.le
  omega

theorem Below.ne_of_right (h : Below (2 * i + 1) m) : i ≠ m := by
  have hle := h.le
  omega

theorem ne_of_not_below (h : ¬ Below i m) : i ≠ m := by
  intro he
  subst he
  exact h (.refl i)

theorem half_le (x d : Nat) : x / 2 ^ (d + 1) ≤ x / 2 := by
  rw [pow_succ']
  exact Nat.div_le_div_left (Nat.le_mul_of_pos_right 2 (Nat.two_pow_pos d)) Nat.two_pos

theorem Below.disjoint (hi : 0 < i) (hl : Below (2 * i) m) (hr : Below (2 * i + 1) m) : False := by
  obtain ⟨k, hk⟩ := hl
  obtain ⟨l, hl⟩ := hr
  rcases Nat.lt_trichotomy k l with h | rfl | h
  · obtain ⟨d, rfl⟩ := Nat.exists_eq_add_of_lt h
    have hle := half_le (m / 2 ^ k) d
    rw [Nat.div_div_eq_div_mul, ← pow_add, ← Nat.add_assoc, hl, hk] at hle
    omega
  · omega
  · obtain ⟨d, rfl⟩ := Nat.exists_eq_add_of_lt h
    have hle := half_le (m / 2 ^ l) d
    rw [Nat.div_div_eq_div_mul, ← pow_add, ← Nat.add_assoc, hl, hk] at hle
    omega

/-! ## How many numbers are needed -/

/-- Node `i`, for an interval that is `len` longer than one index, in a tree over `n` indices. -/
structure Fits (n i len : Nat) : Prop where
  pos : 0 < i
  lt : i < 4 * n
  depth : ∃ d, i < 2 ^ (d + 1) ∧ len * 2 ^ d < n

theorem Fits.root (hn : 0 < n) : Fits n 1 (n - 1) := ⟨Nat.one_pos, by omega, 0, by omega, by omega⟩

/-- A node with a longer interval has numbers left for its children, whose intervals are at most half as long. -/
theorem Fits.child (h : Fits n i len) (hlen : 0 < len) (hj : j / 2 = i) {len' : Nat} (hhalf : 2 * len' ≤ len) :
    Fits n j len' := by
  obtain ⟨d, hd, hlt⟩ := h.depth
  have hpow : 2 ^ d ≤ len * 2 ^ d := Nat.le_mul_of_pos_left _ hlen
  have hsucc : 2 ^ (d + 1) = 2 * 2 ^ d := pow_succ' 2 d
  have hpos := h.pos
  refine ⟨by omega, by omega, d + 1, ?_, ?_⟩
  · rw [pow_succ' 2 (d + 1)]
    omega
  · calc len' * 2 ^ (d + 1) = 2 * len' * 2 ^ d := by rw [hsucc]; ring
      _ ≤ len * 2 ^ d := Nat.mul_le_mul_right _ hhalf
      _ < n := hlt

end ImplicitTree
