import Playground.Lib.CommonSubsequence
import Playground.LongestCommonSubsequence

/-!
# Both versions compute a longest common subsequence

The cells of the table, and those of the rows, are filled with the lengths for
the prefixes of the strings. The backtracking keeps the characters it has
found in common to the rest of both, and as many as the cell it is at leaves.
-/

namespace Playground.LongestCommonSubsequence

open CommonSubsequence
open scoped List

variable {α : Type} [DecidableEq α] {a b : List α}

/-! ## The table -/

def cellLcs (a b : List α) (c : Nat × Nat) : Int := prefixLcs a b c.1 c.2

theorem cellLcs_border {i j : Nat} (h : i = 0 ∨ j = 0) : cellLcs a b (i, j) = 0 := by
  rcases h with rfl | rfl
  · simp [cellLcs]
  · simp [cellLcs]

/-- A cell is right once those above it and to its left are. -/
theorem lcs_step {i j : Nat} (hi : i < a.length) (hj : j < b.length) (hb : b.length + 1 < 2 ^ 31) :
    (if a[i] = b[j] then CInt.fit (cellLcs a b (i, j) + 1)
      else some (max (cellLcs a b (i, j + 1)) (cellLcs a b (i + 1, j)))) = some (cellLcs a b (i + 1, j + 1)) := by
  have hx : a[i]? = some a[i] := List.getElem?_eq_getElem hi
  have hy : b[j]? = some b[j] := List.getElem?_eq_getElem hj
  by_cases h : a[i] = b[j]
  · have hle : prefixLcs a b i j + 1 < 2 ^ 31 := by
      have := prefixLcs_le_right a b i j
      omega
    have hfit : CInt.fit (cellLcs a b (i, j) + 1) = some ((prefixLcs a b i j + 1 : Nat) : Int) := CInt.fit_succ hle
    rw [if_pos h, hfit]
    simp only [cellLcs, prefixLcs_eq hx (h ▸ hy)]
  · rw [if_neg h]
    simp only [cellLcs, prefixLcs_ne hx hy h, Option.some_inj]
    omega

theorem tableCell_eq {dp : List (List Int)} {i j : Nat} {x y : α} {diag up left : Int} (hx : a[i]? = some x)
    (hy : b[j]? = some y) (hdiag : Fill.read dp (i, j) = some diag) (hup : Fill.read dp (i, j + 1) = some up)
    (hleft : Fill.read dp (i + 1, j) = some left) :
    tableCell a b dp (i + 1, j + 1) = if x = y then CInt.fit (diag + 1) else some (max up left) := by
  simp [tableCell, hx, hy, hdiag, hup, hleft]

theorem fillTable_eq (hb : b.length + 1 < 2 ^ 31) :
    fillTable a b a.length b.length (List.replicate (a.length + 1) (List.replicate (b.length + 1) 0)) =
      some (Fill.grid (a.length + 1) (b.length + 1) (cellLcs a b)) := by
  unfold fillTable
  rw [← Fill.grid_const]
  apply Fill.run_grid List.pairwise_lt_range' List.pairwise_lt_range'
  · simp
    omega
  · simp
    omega
  · intro i hi j hj hout
    simp at hout
    exact (cellLcs_border (by omega)).symm
  · intro i hi j hj dp hread
    obtain ⟨i, rfl⟩ := Nat.exists_eq_add_one.mpr (List.mem_range'_1.mp hi).1
    obtain ⟨j, rfl⟩ := Nat.exists_eq_add_one.mpr (List.mem_range'_1.mp hj).1
    simp at hi hj
    have hdiag := hread (i, j) (.inl (Nat.lt_succ_self i)) (by simp; omega)
    have hup := hread (i, j + 1) (.inl (Nat.lt_succ_self i)) (by simp; omega)
    have hleft := hread (i + 1, j) (.inr ⟨rfl, Nat.lt_succ_self j⟩) (by simp; omega)
    have hi' : i < a.length := by omega
    have hj' : j < b.length := by omega
    rw [tableCell_eq (List.getElem?_eq_getElem hi') (List.getElem?_eq_getElem hj') hdiag hup hleft]
    exact lcs_step hi' hj' hb

/-! ## The backtracking -/

/-- What has been found lies in the rest of both strings, and the prefixes have the rest of the length. -/
structure BackInv (a b : List α) (s : Back α) : Prop where
  left : s.i ≤ a.length
  right : s.j ≤ b.length
  sublist_left : s.result.reverse <+ a.drop s.i
  sublist_right : s.result.reverse <+ b.drop s.j
  length : s.result.length + prefixLcs a b s.i s.j = lcs a b

theorem BackInv.next {s : Back α} (h : BackInv a b s) (hi : 0 < s.i) (hj : 0 < s.j) :
    ∃ s', backRound a b (Fill.grid (a.length + 1) (b.length + 1) (cellLcs a b)) s = some s' ∧ BackInv a b s' ∧
      s'.i + s'.j < s.i + s.j := by
  obtain ⟨i, j, result⟩ := s
  obtain ⟨i, rfl⟩ := Nat.exists_eq_add_one.mpr hi
  obtain ⟨j, rfl⟩ := Nat.exists_eq_add_one.mpr hj
  obtain ⟨hleft, hright, hsub, hsub', hlen⟩ := h
  simp only at hleft hright hsub hsub' hlen
  have hx : a[i]? = some a[i] := List.getElem?_eq_getElem hleft
  have hy : b[j]? = some b[j] := List.getElem?_eq_getElem hright
  have hup := Fill.read_grid (c := (i, j + 1)) (cellLcs a b) (Nat.lt_succ_of_lt hleft) (Nat.succ_lt_succ hright)
  have hback := Fill.read_grid (c := (i + 1, j)) (cellLcs a b) (Nat.succ_lt_succ hleft) (Nat.lt_succ_of_lt hright)
  simp only [backRound, Nat.add_sub_cancel, hx, hy, hup, hback, Option.bind_eq_bind, Option.bind_some]
  have hdrop : a.drop i = a[i] :: a.drop (i + 1) := List.drop_eq_getElem_cons hleft
  have hdrop' : b.drop j = b[j] :: b.drop (j + 1) := List.drop_eq_getElem_cons hright
  by_cases heq : a[i] = b[j]
  · rw [if_pos heq]
    refine ⟨_, rfl, ⟨Nat.le_of_lt hleft, Nat.le_of_lt hright, ?_, ?_, ?_⟩, by simp; omega⟩
    · rw [List.reverse_append, hdrop]
      exact hsub.cons_cons a[i]
    · rw [List.reverse_append, hdrop', ← heq]
      exact hsub'.cons_cons a[i]
    · rw [prefixLcs_eq hx (heq ▸ hy)] at hlen
      simp
      omega
  · rw [prefixLcs_ne hx hy heq] at hlen
    rw [if_neg heq]
    by_cases hgt : cellLcs a b (i, j + 1) > cellLcs a b (i + 1, j)
    · rw [if_pos hgt]
      simp only [cellLcs] at hgt
      refine ⟨_, rfl, ⟨Nat.le_of_lt hleft, hright, ?_, hsub', ?_⟩, by simp⟩
      · rw [hdrop]
        exact hsub.cons a[i]
      · simp only
        omega
    · rw [if_neg hgt]
      simp only [cellLcs] at hgt
      refine ⟨_, rfl, ⟨hleft, Nat.le_of_lt hright, hsub, ?_, ?_⟩, by simp⟩
      · rw [hdrop']
        exact hsub'.cons b[j]
      · simp only
        omega

theorem lcsWithSequence_eq (ha : a.length + 1 < 2 ^ 31) (hb : b.length + 1 < 2 ^ 31) :
    ∃ s, lcsWithSequence a b = some s ∧ s <+ a ∧ s <+ b ∧ s.length = lcs a b := by
  have hstart : BackInv a b { i := a.length, j := b.length } := by
    constructor
    · exact Nat.le_refl _
    · exact Nat.le_refl _
    · simp
    · simp
    · simp [prefixLcs_length]
  obtain ⟨s, hrun, hs, hexit⟩ := Loop.run_while (c := fun s : Back α => 0 < s.i ∧ 0 < s.j) (fun s => s.i + s.j)
    (fun s hs hgo => hs.next hgo.1 hgo.2) hstart (Nat.lt_succ_self _)
  have hzero : prefixLcs a b s.i s.j = 0 := by
    have : s.i = 0 ∨ s.j = 0 := by omega
    rcases this with h | h
    · simp [h]
    · simp [h]
  refine ⟨s.result.reverse, ?_, hs.sublist_left.trans (List.drop_sublist _ _),
    hs.sublist_right.trans (List.drop_sublist _ _), ?_⟩
  · simp only [lcsWithSequence, CInt.ofSize_of_lt (Nat.lt_of_succ_lt ha), CInt.ofSize_of_lt (Nat.lt_of_succ_lt hb),
      CInt.fit_succ ha, CInt.fit_succ hb, Vec.create_natCast, Int.toNat_natCast,
      fillTable_eq hb, Option.bind_eq_bind, Option.bind_some]
    unfold backBody
    rw [hrun]
    rfl
  · have hlen := hs.length
    simp
    omega

/-! ## The rows -/

def row (a b : List α) (i : Nat) : List Int := Fill.vec (b.length + 1) fun j => cellLcs a b (i, j)

theorem rowCell_eq (x : α) {prev curr : List Int} {j : Nat} {y : α} {diag up left : Int} (hy : b[j]? = some y)
    (hdiag : prev[j]? = some diag) (hup : prev[j + 1]? = some up) (hleft : curr[j]? = some left) :
    rowCell b x prev curr (j + 1) = if x = y then CInt.fit (diag + 1) else some (max up left) := by
  simp [rowCell, hy, hdiag, hup, hleft]

theorem nextRow_eq {i : Nat} (hi : i < a.length) (hb : b.length + 1 < 2 ^ 31) :
    nextRow b b.length (row a b i, List.replicate (b.length + 1) 0) a[i] =
      some (row a b (i + 1), List.replicate (b.length + 1) 0) := by
  have hfill : (List.range' 1 b.length).foldlM (Fill.step Vec.write (rowCell b a[i] (row a b i)))
      (List.replicate (b.length + 1) 0) = some (row a b (i + 1)) := by
    rw [← Fill.vec_const]
    apply Fill.run_vec List.pairwise_lt_range'
    · simp
      omega
    · intro j hj hout
      simp at hout
      exact (cellLcs_border (by omega)).symm
    · intro j hj curr hread
      obtain ⟨j, rfl⟩ := Nat.exists_eq_add_one.mpr (List.mem_range'_1.mp hj).1
      simp at hj
      have hdiag : (row a b i)[j]? = some (cellLcs a b (i, j)) := Fill.vec_get _ (by omega)
      have hup : (row a b i)[j + 1]? = some (cellLcs a b (i, j + 1)) := Fill.vec_get _ (by omega)
      have hj' : j < b.length := by omega
      rw [rowCell_eq a[i] (List.getElem?_eq_getElem hj') hdiag hup (hread j (Nat.lt_succ_self j))]
      exact lcs_step hi hj' hb
  have hlen : (row a b i).length = b.length + 1 := by simp [row]
  simp [nextRow, hfill, hlen]

theorem rows_eq (hb : b.length + 1 < 2 ^ 31) :
    a.foldlM (nextRow b b.length) (row a b 0, List.replicate (b.length + 1) 0) =
      some (row a b a.length, List.replicate (b.length + 1) 0) :=
  Loop.forEach_eq (s := fun i => (row a b i, List.replicate (b.length + 1) 0)) fun _ hi => nextRow_eq hi hb

theorem lengthOfRows_eq (hb : b.length + 1 < 2 ^ 31) : lengthOfRows a b = some (lcs a b : Int) := by
  have hzero : row a b 0 = List.replicate (b.length + 1) 0 := by
    rw [← Fill.vec_const]
    exact Fill.vec_congr fun j _ => cellLcs_border (.inl rfl)
  have hrows := rows_eq (a := a) hb
  rw [hzero] at hrows
  have hlast : (row a b a.length)[b.length]? = some (lcs a b : Int) := by
    rw [row, Fill.vec_get _ (Nat.lt_succ_self _), cellLcs, prefixLcs_length]
  simp only [lengthOfRows, CInt.ofSize_of_lt (Nat.lt_of_succ_lt hb), CInt.fit_succ hb, Vec.create_natCast,
    Int.toNat_natCast, hrows, Vec.at?_natCast, hlast, Option.bind_eq_bind, Option.bind_some]

theorem lcsLength_eq (h : min a.length b.length + 1 < 2 ^ 31) : lcsLength a b = some (lcs a b : Int) := by
  unfold lcsLength
  by_cases hswap : a.length < b.length
  · rw [if_pos hswap, lengthOfRows_eq (by omega), lcs_comm]
  · rw [if_neg hswap, lengthOfRows_eq (by omega)]

/-! ## Both versions -/

/-- **A longest common subsequence, and its length.** -/
theorem both_versions (a b : List α) (ha : a.length + 1 < 2 ^ 31) (hb : b.length + 1 < 2 ^ 31) :
    ∃ s, lcsWithSequence a b = some s ∧ Longest s a b ∧ lcsLength a b = some (s.length : Int) := by
  obtain ⟨s, hs, hsub, hsub', hlen⟩ := lcsWithSequence_eq ha hb
  refine ⟨s, hs, longest_of_length hsub hsub' hlen, ?_⟩
  rw [hlen]
  exact lcsLength_eq (by omega)

example : lcsWithSequence "ABCBDAB".toList "BDCABA".toList = some "BDAB".toList ∧
    lcsLength "ABCBDAB".toList "BDCABA".toList = some 4 := by decide

theorem both_versions_abc : ∃ s, lcsWithSequence "abc".toList "bcd".toList = some s ∧
    Longest s "abc".toList "bcd".toList ∧ lcsLength "abc".toList "bcd".toList = some (s.length : Int) :=
  both_versions "abc".toList "bcd".toList (by decide) (by decide)

/-- With `2 ^ 31 - 1` characters the number of rows overflows. -/
theorem lcsWithSequence_long : ¬ ∀ a b : List Char,
    ∃ s, lcsWithSequence a b = some s ∧ Longest s a b ∧ lcsLength a b = some (s.length : Int) := by
  intro h
  obtain ⟨k, hk⟩ : ∃ k : Nat, k + 1 = 2 ^ 31 := ⟨2 ^ 31 - 1, by decide⟩
  obtain ⟨s, hs, -⟩ := h (List.replicate k 'a') []
  have hfit : CInt.fit (CInt.ofSize (List.replicate k 'a').length + 1) = none := by
    rw [List.length_replicate, CInt.ofSize_of_lt (by omega)]
    exact CInt.fit_of_le (by omega)
  rw [lcsWithSequence, hfit] at hs
  cases hs

end Playground.LongestCommonSubsequence
