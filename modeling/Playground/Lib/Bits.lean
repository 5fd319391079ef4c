import Mathlib.Algebra.Group.Nat.Even
import Mathlib.Data.Finset.Card
import Mathlib.Data.Finset.Range
import Mathlib.Data.Finset.SymmDiff

/-!
# The bits of a word

The positions of the ones, a bit that is set and cleared, the lowest one, and the
bits of an exclusive or.
-/

namespace Bits

variable {w i : Nat} {x : BitVec w}

/-- The positions of the one bits. -/
def ones (x : BitVec w) : Finset Nat := (Finset.range w).filter fun i => x.getLsbD i = true

theorem mem_ones : i ∈ ones x ↔ x.getLsbD i = true := by
  rw [ones, Finset.mem_filter, Finset.mem_range, and_iff_right_iff_imp]
  exact BitVec.lt_of_getLsbD

@[simp] theorem ones_zero : ones 0#w = ∅ := by
  ext i
  simp [mem_ones]

theorem ones_eq_empty : ones x = ∅ ↔ x = 0 := by
  refine ⟨fun h => BitVec.eq_of_getLsbD_eq fun i hi => ?_, fun h => h ▸ ones_zero⟩
  rw [BitVec.ofNat_eq_ofNat, BitVec.getLsbD_zero, Bool.eq_false_iff, ne_eq, ← mem_ones, h]
  exact Finset.notMem_empty i

theorem and_ne_zero_iff {y : BitVec w} : x &&& y ≠ 0 ↔ ∃ i ∈ ones y, i ∈ ones x := by
  constructor
  · intro h
    by_contra hne
    refine h (BitVec.eq_of_getLsbD_eq fun i hi => ?_)
    rw [BitVec.getLsbD_and, BitVec.ofNat_eq_ofNat, BitVec.getLsbD_zero, Bool.and_eq_false_imp]
    exact fun hx => Bool.eq_false_iff.mpr fun hy => hne ⟨i, mem_ones.mpr hy, mem_ones.mpr hx⟩
  · rintro ⟨i, hy, hx⟩ h
    have := congrArg (fun z : BitVec w => z.getLsbD i) h
    simp [mem_ones.mp hx, mem_ones.mp hy] at this

/-! ## A single bit -/

theorem and_twoPow_beq (hi : i < w) :
    (x &&& BitVec.twoPow w i == 0) = true ↔ ¬ x.getLsbD i = true := by
  rw [BitVec.and_twoPow, beq_iff_eq]
  split
  · rename_i h
    simp only [h, not_true_eq_false, iff_false]
    intro h0
    have := congrArg (fun y : BitVec w => y.getLsbD i) h0
    simp [hi] at this
  · rename_i h
    simp [h]

theorem getLsbD_or_twoPow (hi : i < w) (j : Nat) :
    (x ||| BitVec.twoPow w i).getLsbD j = true ↔ x.getLsbD j = true ∨ j = i := by
  rw [BitVec.getLsbD_or, BitVec.getLsbD_twoPow, Bool.or_eq_true]
  simp only [hi, decide_true, Bool.true_and, decide_eq_true_eq, eq_comm (a := i)]

theorem ones_or_twoPow (hi : i < w) : ones (x ||| BitVec.twoPow w i) = insert i (ones x) := by
  ext j
  rw [mem_ones, getLsbD_or_twoPow hi, Finset.mem_insert, mem_ones, or_comm]

theorem ones_and_not_twoPow (hi : i < w) : ones (x &&& ~~~BitVec.twoPow w i) = (ones x).erase i := by
  ext j
  rw [mem_ones, Finset.mem_erase, mem_ones, BitVec.getLsbD_and, BitVec.getLsbD_not, BitVec.getLsbD_twoPow,
    Bool.and_eq_true, and_comm]
  refine and_congr_left fun hj => ?_
  simp only [BitVec.lt_of_getLsbD hj, hi, decide_true, Bool.true_and, Bool.not_eq_true',
    decide_eq_false_iff_not, ne_eq, eq_comm (a := i)]

theorem ones_xor_twoPow (hi : i < w) : ones (x ^^^ BitVec.twoPow w i) = symmDiff (ones x) {i} := by
  ext j
  rw [mem_ones, Finset.mem_symmDiff, mem_ones, Finset.mem_singleton, BitVec.getLsbD_xor, BitVec.getLsbD_twoPow]
  by_cases hij : i = j
  · subst hij
    simp [hi]
  · simp [hij, eq_comm (a := j)]

theorem or_xor_twoPow (h : ¬ x.getLsbD i = true) :
    (x ||| BitVec.twoPow w i) ^^^ BitVec.twoPow w i = x := by
  apply BitVec.eq_of_getLsbD_eq
  intro j _
  rw [BitVec.getLsbD_xor, BitVec.getLsbD_or, BitVec.getLsbD_twoPow]
  by_cases hij : i = j
  · subst hij
    rw [Bool.not_eq_true] at h
    rw [h]
    simp
  · simp [hij]

theorem twoPow_inj {j : Nat} (hi : i < w) (h : BitVec.twoPow w i = BitVec.twoPow w j) : i = j := by
  have := congrArg (fun b : BitVec w => b.getLsbD i) h
  simp only [BitVec.getLsbD_twoPow, hi, decide_true, Bool.true_and] at this
  exact (of_decide_eq_true (Bool.and_eq_true_iff.mp this.symm).2).symm

/-! ## The lowest one -/

theorem ctz_mem_ones (hx : x ≠ 0) : x.ctz.toNat ∈ ones x := mem_ones.mpr (BitVec.getLsbD_true_ctz_of_ne_zero hx)

theorem ctz_le_of_mem_ones (hi : i ∈ ones x) : x.ctz.toNat ≤ i := by
  by_contra hlt
  rw [mem_ones, BitVec.getLsbD_false_of_lt_ctz (Nat.lt_of_not_le hlt)] at hi
  cases hi

theorem exists_lt_iff (hi : i ∈ ones x) : (∃ j < i, x.getLsbD j = true) ↔ i ≠ x.ctz.toNat := by
  constructor
  · rintro ⟨j, hj, hxj⟩ rfl
    exact absurd (ctz_le_of_mem_ones (mem_ones.mpr hxj)) (Nat.not_le_of_lt hj)
  · intro hne
    have hx : x ≠ 0 := by
      rintro rfl
      simp at hi
    exact ⟨_, Nat.lt_of_le_of_ne (ctz_le_of_mem_ones hi) (Ne.symm hne), mem_ones.mp (ctz_mem_ones hx)⟩

theorem sub_one_eq : x - 1 = ~~~(-x) := by
  rw [BitVec.neg_eq_not_add, ← BitVec.not_sub_one_eq_not_add_one, BitVec.not_not]
  rfl

theorem ones_and_neg (hx : x ≠ 0) : ones (x &&& -x) = {x.ctz.toNat} := by
  ext i
  rw [mem_ones, Finset.mem_singleton, BitVec.getLsbD_and, BitVec.getLsbD_neg]
  by_cases hi : i ∈ ones x
  · have hw := BitVec.lt_of_getLsbD (mem_ones.mp hi)
    simp only [mem_ones.mp hi, hw, exists_lt_iff hi, decide_true, Bool.true_and, Bool.true_bne, Bool.not_eq_true',
      decide_eq_false_iff_not, Decidable.not_not]
  · have hne : i ≠ x.ctz.toNat := fun h => hi (h ▸ ctz_mem_ones hx)
    rw [mem_ones, Bool.not_eq_true] at hi
    simp [hi, hne]

theorem ones_and_sub_one (x : BitVec w) : ones (x &&& (x - 1)) = (ones x).erase x.ctz.toNat := by
  ext i
  rw [Finset.mem_erase, mem_ones, BitVec.getLsbD_and, sub_one_eq, BitVec.getLsbD_not, BitVec.getLsbD_neg]
  by_cases hi : i ∈ ones x
  · have hw := BitVec.lt_of_getLsbD (mem_ones.mp hi)
    simp only [mem_ones.mp hi, hi, hw, exists_lt_iff hi, decide_true, Bool.true_and, Bool.true_bne, Bool.not_not,
      decide_eq_true_eq, and_true]
  · simp [hi, Bool.eq_false_iff.mpr fun h => hi (mem_ones.mpr h)]

theorem card_ones_and_sub_one (hx : x ≠ 0) : (ones (x &&& (x - 1))).card + 1 = (ones x).card := by
  rw [ones_and_sub_one, Finset.card_erase_add_one (ctz_mem_ones hx)]

theorem msb_and_sub_one (hx : x.msb = true) (hne : x ≠ BitVec.intMin w) : (x &&& (x - 1)).msb = true := by
  rw [BitVec.msb_eq_getLsbD_last] at hx ⊢
  have hmem := mem_ones.mpr hx
  rw [← mem_ones, ones_and_sub_one, Finset.mem_erase]
  refine ⟨fun hlow => hne (BitVec.eq_of_getLsbD_eq fun i hi => ?_), hmem⟩
  rw [BitVec.getLsbD_intMin, Bool.eq_iff_iff, decide_eq_true_eq]
  constructor
  · intro hxi
    have := ctz_le_of_mem_ones (mem_ones.mpr hxi)
    omega
  · intro hw
    rwa [show i = w - 1 by omega]

theorem and_sub_one_eq_zero (hx : x ≠ 0) : x &&& (x - 1) = 0 ↔ ∃ k, ones x = {k} := by
  rw [← ones_eq_empty, ones_and_sub_one]
  constructor
  · intro h
    exact ⟨_, (Finset.insert_erase (ctz_mem_ones hx)).symm.trans (congrArg (insert x.ctz.toNat) h)⟩
  · rintro ⟨k, hk⟩
    have hmem := ctz_mem_ones hx
    rw [hk, Finset.mem_singleton] at hmem
    rw [hk, hmem, Finset.erase_singleton]

/-! ## Exclusive or -/

theorem getLsbD_foldl_xor (l : List (BitVec w)) (a : BitVec w) :
    (l.foldl (· ^^^ ·) a).getLsbD i = true ↔ (a.getLsbD i = true ↔ Even (l.countP fun x => x.getLsbD i)) := by
  induction l generalizing a with
  | nil => simp
  | cons x l ih =>
    rw [List.foldl_cons, ih, List.countP_cons, BitVec.getLsbD_xor]
    cases x.getLsbD i
    · simp
    · cases a.getLsbD i <;> simp [Nat.even_add_one]

end Bits
