import Mathlib.Dynamics.PeriodicPts.Defs

/-!
# The orbit of a point

Following a function from a point, one point is met again if and only if it is
periodic. One walk that takes two steps for each step of another meets it at
some index, and from this index on the walk has that index as a period.
-/

namespace Orbit

open Function

variable {S : Type*} {f : S → S} {s : S} {i j k n : Nat}

theorem isPeriodicPt_of_eq (h : f^[i] s = f^[n + i] s) : IsPeriodicPt f n (f^[i] s) := by
  unfold IsPeriodicPt IsFixedPt
  rw [← iterate_add_apply, h]

theorem mem_periodicPts_iff : f^[i] s ∈ periodicPts f ↔ ∃ j > i, f^[j] s = f^[i] s := by
  constructor
  · rintro ⟨n, hn, h⟩
    refine ⟨n + i, by omega, ?_⟩
    rw [iterate_add_apply, h]
  · rintro ⟨j, hj, h⟩
    obtain ⟨n, rfl⟩ := Nat.exists_eq_add_of_le' (Nat.le_of_lt hj)
    exact mk_mem_periodicPts (by omega) (isPeriodicPt_of_eq h.symm)

/-- Between `i` and `j` lies a multiple of `j - i`. -/
theorem exists_meeting (hlt : i < j) (h : f^[i] s = f^[j] s) : ∃ n, 0 < n ∧ n ≤ j ∧ f^[n] s = f^[n + n] s := by
  obtain ⟨p, rfl⟩ := Nat.exists_eq_add_of_le' (Nat.le_of_lt hlt)
  have hp : 0 < p := by omega
  have hle : (p + i) / p * p ≤ p + i := Nat.div_mul_le_self (p + i) p
  have hlt' : p + i < (p + i) / p * p + p := Nat.lt_div_mul_add hp
  obtain ⟨k, hk⟩ := Nat.exists_eq_add_of_le' (by omega : i ≤ (p + i) / p * p)
  have hperiod : IsPeriodicPt f ((p + i) / p * p) (f^[k + i] s) := by
    rw [iterate_add_apply]
    exact ((isPeriodicPt_of_eq h).apply_iterate k).const_mul _
  rw [hk] at hle hlt' hperiod
  refine ⟨k + i, by omega, hle, ?_⟩
  rw [iterate_add_apply f (k + i) (k + i), hperiod]

/-- **The meeting point.** Where a walk meets itself at twice the index, this index is a period, and just the
periodic points have it. -/
theorem meets_iff (h : f^[n] s = f^[n + n] s) (hn : 0 < n) : f^[k] s = f^[n + k] s ↔ f^[k] s ∈ periodicPts f := by
  constructor
  · intro hk
    exact mk_mem_periodicPts hn (isPeriodicPt_of_eq hk)
  · intro hk
    have hperiod : IsPeriodicPt f n (f^[n] (f^[k] s)) := by
      rw [← iterate_add_apply, Nat.add_comm, iterate_add_apply]
      exact (isPeriodicPt_of_eq h).apply_iterate k
    have hpoint := isPeriodicPt_of_mem_periodicPts_of_isPeriodicPt_iterate hk hperiod
    rw [iterate_add_apply, hpoint]

end Orbit
