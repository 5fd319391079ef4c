import Playground.MergeSort

/-!
# Merge sort sorts stably and counts the inversions

`At arr i l` says that the list `l` lies in the vector from index `i` on. The
loops take what is left of two such lists apart, `merge_and_count` puts their
merge in their place, and the recursion comes to the library's merge sort.
-/

namespace Playground.MergeSort

open Inversions

variable {T : Type} {le : T → T → Bool} {arr l r temp : List T} {x : T} {i j : Nat} {mid right : Int}

/-! ## Parts of the vector -/

def At (arr : List T) (i : Nat) (l : List T) : Prop := ∃ p q, arr = p ++ (l ++ q) ∧ p.length = i

theorem At.head (h : At arr i (x :: l)) : Vec.at? arr i = some x := by
  obtain ⟨p, q, rfl, rfl⟩ := h
  simp

theorem At.tail (h : At arr i (x :: l)) : At arr (i + 1) l := by
  obtain ⟨p, q, rfl, rfl⟩ := h
  exact ⟨p ++ [x], q, by simp, by simp⟩

/-! ## The loops -/

theorem rest_run {last : Int} (h : At arr i l) (hlast : last + 1 = i + l.length) {n : Nat} (hn : l.length < n) :
    Loop.run (restBody arr last) n (i, temp) = some (last + 1, temp ++ l) := by
  induction l generalizing i temp n with
  | nil =>
    obtain ⟨n, rfl⟩ := Nat.exists_eq_add_one.mpr hn
    have hi : last + 1 = i := by simpa using hlast
    have hexit : restBody arr last ((i : Int), temp) = .exit := if_neg (by simp only; omega)
    rw [Loop.run_exit hexit, hi, List.append_nil]
  | cons x l ih =>
    obtain ⟨n, rfl⟩ := Nat.exists_eq_add_one.mpr (Nat.zero_lt_of_lt hn)
    simp only [List.length_cons] at hlast hn
    have hle : (i : Int) ≤ last := by omega
    have hround : restBody arr last ((i : Int), temp) = .next (((i + 1 : Nat) : Int), temp ++ [x]) := by
      simp only [restBody, if_pos hle, h.head, Option.bind_eq_bind, Option.bind_some]
      rfl
    rw [Loop.run_next hround, ih h.tail (by omega) (by omega), List.append_assoc]
    rfl

theorem mergeBody_exit {inv : Int} (h : mid < i ∨ right < j) :
    mergeBody le arr mid right ⟨i, j, temp, inv⟩ = .exit := by
  apply if_neg
  simp only
  omega

theorem mergeBody_left {y : T} {inv : Int} (hl : At arr i (x :: l)) (hr : At arr j (y :: r)) (hi : (i : Int) ≤ mid)
    (hj : (j : Int) ≤ right) (h : le x y) :
    mergeBody le arr mid right ⟨i, j, temp, inv⟩ = .next ⟨(i + 1 : Nat), j, temp ++ [x], inv⟩ := by
  simp only [mergeBody, mergeRound, if_pos (And.intro hi hj), hl.head, hr.head, if_pos h, Option.bind_eq_bind,
    Option.bind_some]
  rfl

theorem mergeBody_right {y : T} {inv : Int} (hl : At arr i (x :: l)) (hr : At arr j (y :: r)) (hi : (i : Int) ≤ mid)
    (hj : (j : Int) ≤ right) (h : ¬ le x y) :
    mergeBody le arr mid right ⟨i, j, temp, inv⟩ = .next ⟨i, (j + 1 : Nat), temp ++ [y], inv + (mid - i + 1)⟩ := by
  simp only [mergeBody, mergeRound, if_pos (And.intro hi hj), hl.head, hr.head, if_neg h, Option.bind_eq_bind,
    Option.bind_some]
  rfl

/-- The first loop ends with one of the lists taken, and has counted the pairs across. -/
theorem merge_run (trans : ∀ a b c, le a b → le b c → le a c) (temp : List T) (inv : Int) (n : Nat)
    (hl : At arr i l) (hr : At arr j r) (hmid : mid + 1 = i + l.length) (hright : right + 1 = j + r.length)
    (hls : l.Pairwise fun a b => le a b) (hrs : r.Pairwise fun a b => le a b) (hn : l.length + r.length < n) :
    ∃ (i' j' : Nat) (l' r' temp' : List T), Loop.run (mergeBody le arr mid right) n ⟨i, j, temp, inv⟩ =
        some ⟨i', j', temp', inv + cross le l r⟩ ∧ At arr i' l' ∧ At arr j' r' ∧ mid + 1 = i' + l'.length ∧
      right + 1 = j' + r'.length ∧ temp' ++ l' ++ r' = temp ++ l.merge r le := by
  induction l generalizing i j r temp inv n with
  | nil =>
    obtain ⟨n, rfl⟩ := Nat.exists_eq_add_one.mpr (Nat.zero_lt_of_lt hn)
    have hi : mid < i := by
      simp only [List.length_nil] at hmid
      omega
    have hexit : mergeBody le arr mid right ⟨i, j, temp, inv⟩ = .exit := mergeBody_exit (Or.inl hi)
    exact ⟨i, j, [], r, temp, by simp [Loop.run_exit hexit], hl, hr, hmid, hright, by simp⟩
  | cons x l ihl =>
    induction r generalizing i j temp inv n with
    | nil =>
      obtain ⟨n, rfl⟩ := Nat.exists_eq_add_one.mpr (Nat.zero_lt_of_lt hn)
      have hj : right < j := by
        simp only [List.length_nil] at hright
        omega
      have hexit : mergeBody le arr mid right ⟨i, j, temp, inv⟩ = .exit := mergeBody_exit (Or.inr hj)
      exact ⟨i, j, x :: l, [], temp, by simp [Loop.run_exit hexit], hl, hr, hmid, hright, by simp⟩
    | cons y r ihr =>
      obtain ⟨n, rfl⟩ := Nat.exists_eq_add_one.mpr (Nat.zero_lt_of_lt hn)
      simp only [List.length_cons] at hmid hright hn
      have hi : (i : Int) ≤ mid := by omega
      have hj : (j : Int) ≤ right := by omega
      by_cases h : le x y
      · obtain ⟨i', j', l', r', temp', hrun, hl', hr', hmid', hright', heq⟩ := ihl (temp ++ [x]) inv n hl.tail hr
          (by omega) (by simp; omega) (List.pairwise_cons.mp hls).2 hrs (by simp; omega)
        refine ⟨i', j', l', r', temp', ?_, hl', hr', hmid', hright', ?_⟩
        · rw [Loop.run_next (mergeBody_left hl hr hi hj h), hrun, cross_of_le trans hrs h]
        · rw [heq, List.cons_merge_cons_pos _ _ _ h, List.append_assoc, List.singleton_append]
      · obtain ⟨i', j', l', r', temp', hrun, hl', hr', hmid', hright', heq⟩ := ihr (temp ++ [y])
          (inv + (mid - i + 1)) n hl hr.tail (by simp; omega) (by omega)
            (List.pairwise_cons.mp hrs).2 (by simp; omega)
        refine ⟨i', j', l', r', temp', ?_, hl', hr', hmid', hright', ?_⟩
        · have hlength : mid - i + 1 = (x :: l).length := by simp; omega
          rw [Loop.run_next (mergeBody_right hl hr hi hj h), hrun, cross_of_not_le trans hls h, hlength,
            Int.natCast_add, Int.add_assoc]
        · rw [heq, List.cons_merge_cons_neg _ _ _ h, List.append_assoc, List.singleton_append]

/-! ## Merging in place -/

theorem copyTo_eq (p q : List T) (h : temp.length = (l ++ r).length) :
    copyTo (p ++ l ++ r ++ q) temp p.length = some (p ++ temp ++ q) := by
  have hfit : (0 : Int) ≤ p.length ∧ (p.length : Int) + temp.length ≤ (p ++ l ++ r ++ q).length := by
    simp at h ⊢
    omega
  have hdrop : p.length + temp.length = (p ++ l ++ r).length := by simp [h]
  have htake : (p ++ l ++ r ++ q).take p.length = p := by simp
  rw [copyTo, if_pos hfit, Int.toNat_natCast, hdrop, List.drop_left, htake]

theorem mergeAndCount_eq (trans : ∀ a b c, le a b → le b c → le a c) (p q : List T)
    (hls : l.Pairwise fun a b => le a b) (hrs : r.Pairwise fun a b => le a b)
    (hmid : mid + 1 = p.length + l.length) (hright : right = mid + r.length) :
    mergeAndCount le (p ++ l ++ r ++ q) p.length mid right =
      some (p ++ l.merge r le ++ q, (cross le l r : Int)) := by
  have hl : At (p ++ l ++ r ++ q) p.length l := ⟨p, r ++ q, by simp, rfl⟩
  have hr : At (p ++ l ++ r ++ q) (p.length + l.length) r := ⟨p ++ l, q, by simp, by simp⟩
  have hlen : l.length + r.length < (p ++ l ++ r ++ q).length + 1 := by simp; omega
  have hstart : mid + 1 = ((p.length + l.length : Nat) : Int) := hmid
  have hend : right + 1 = ((p.length + l.length : Nat) : Int) + r.length := by omega
  obtain ⟨i', j', l', r', temp', hrun, hl', hr', hmid', hright', heq⟩ :=
    merge_run trans [] 0 _ hl hr hmid hend hls hrs hlen
  have hlen' :
    temp'.length + (l'.length + r'.length) = l.length + r.length := by simpa using congrArg List.length heq
  have hcopy : copyTo (p ++ l ++ r ++ q) (l.merge r le) p.length = some (p ++ l.merge r le ++ q) :=
    copyTo_eq p q (by simp)
  simp only [mergeAndCount, hstart, hrun, rest_run hl' hmid' (Nat.lt_of_le_of_lt (by omega) hlen),
    rest_run hr' hright' (Nat.lt_of_le_of_lt (by omega) hlen), heq, List.nil_append, hcopy, Option.bind_eq_bind,
    Option.bind_some, Int.zero_add]

/-! ## The recursion -/

theorem mergeSort_halves (h : 2 ≤ l.length) : l.mergeSort le =
    ((l.take ((l.length + 1) / 2)).mergeSort le).merge ((l.drop ((l.length + 1) / 2)).mergeSort le) le := by
  match l, h with
  | x :: y :: l, _ =>
    rw [List.mergeSort]
    simp only [List.MergeSort.Internal.splitInTwo_fst, List.MergeSort.Internal.splitInTwo_snd, List.length_cons]

theorem half_cast {n : Nat} (p : Nat) (h : 0 < n) :
    ((p : Int) + (((p : Int) + n - 1) - p).tdiv 2) = ((p + (n - 1) / 2 : Nat) : Int) := by
  have hsub : (p : Int) + n - 1 - p = ((n - 1 : Nat) : Int) := by omega
  rw [hsub, Int.natCast_add]
  exact congrArg _ (Int.ofNat_tdiv (n - 1) 2).symm

theorem mergeSortRange_eq (trans : ∀ a b c, le a b → le b c → le a c) (total : ∀ a b, le a b || le b a) (fuel : Nat)
    (p q : List T) (hl : l ≠ []) (hfuel : l.length ≤ fuel) :
    mergeSortRange le fuel (p ++ l ++ q) p.length (p.length + l.length - 1) =
      some (p ++ l.mergeSort le ++ q, (inversions le l : Int)) := by
  induction fuel generalizing l p q with
  | zero => exact absurd (List.length_eq_zero_iff.mp (Nat.le_zero.mp hfuel)) hl
  | succ fuel ih =>
    have hpos := List.length_pos_iff.mpr hl
    by_cases hone : l.length = 1
    · obtain ⟨x, rfl⟩ := List.length_eq_one_iff.mp hone
      rw [mergeSortRange, if_pos (by simp), List.mergeSort_singleton]
      rfl
    · obtain ⟨a, b, ha, hb⟩ : ∃ a b, a = l.take ((l.length + 1) / 2) ∧ b = l.drop ((l.length + 1) / 2) :=
        ⟨_, _, rfl, rfl⟩
      have hab : a ++ b = l := by rw [ha, hb, List.take_append_drop]
      have halen : a.length = (l.length + 1) / 2 := by simp [ha]; omega
      have hlen : a.length + b.length = l.length := by rw [← hab, List.length_append]
      have hane : a ≠ [] := List.length_pos_iff.mp (by omega)
      have hbne : b ≠ [] := List.length_pos_iff.mp (by omega)
      have hgo : ¬ (p.length : Int) + l.length - 1 ≤ p.length := by omega
      have hmid : (p.length : Int) + ((p.length + l.length - 1) - p.length : Int).tdiv 2 =
        p.length + a.length - 1 := by
        rw [half_cast p.length hpos]
        omega
      have hleft : mergeSortRange le fuel (p ++ l ++ q) p.length (p.length + a.length - 1) =
          some (p ++ a.mergeSort le ++ (b ++ q), (inversions le a : Int)) := by
        rw [← ih p (b ++ q) hane (by omega), ← hab]
        simp
      have hright : mergeSortRange le fuel (p ++ a.mergeSort le ++ (b ++ q)) (p.length + a.length - 1 + 1)
          (p.length + l.length - 1) =
          some (p ++ a.mergeSort le ++ b.mergeSort le ++ q, (inversions le b : Int)) := by
        rw [← ih (p ++ a.mergeSort le) q hbne (by omega)]
        congr 1
        · simp
        · simp
        · simp
          omega
      have hmerge : mergeAndCount le (p ++ a.mergeSort le ++ b.mergeSort le ++ q) p.length (p.length + a.length - 1)
          (p.length + l.length - 1) = some (p ++ l.mergeSort le ++ q, (cross le a b : Int)) := by
        rw [mergeAndCount_eq trans p q (List.pairwise_mergeSort trans total a)
          (List.pairwise_mergeSort trans total b) (by simp) (by simp; omega), cross_perm (List.mergeSort_perm a le)
          (List.mergeSort_perm b le), mergeSort_halves (l := l) (by omega), ha, hb]
      have hsum : inversions le l = inversions le a + inversions le b + cross le a b := by
        rw [← hab, inversions_append]
      simp only [mergeSortRange, if_neg hgo, hmid, hleft, hright, hmerge, Option.bind_eq_bind,
        Option.bind_some, hsum]
      simp

theorem stablySorts_mergeSort (trans : ∀ a b c, le a b → le b c → le a c) (total : ∀ a b, le a b || le b a)
    (l : List T) : StablySorts le (l.mergeSort le) l := by
  refine ⟨List.mergeSort_perm l le, List.pairwise_mergeSort trans total l, fun x => ?_⟩
  have hsorted : (l.filter fun y => le x y && le y x).Pairwise fun a b => le a b := by
    apply List.pairwise_of_forall_mem_list
    intro y hy z hz
    simp only [List.mem_filter, Bool.and_eq_true] at hy hz
    exact trans y x z hy.2.2 hz.2.1
  have hsub := (List.sublist_mergeSort trans total hsorted List.filter_sublist).filter fun y => le x y && le y x
  rw [List.filter_filter] at hsub
  simp only [Bool.and_self] at hsub
  exact (hsub.eq_of_length ((List.mergeSort_perm l le).filter _).length_eq.symm).symm

/-- **Merge sort sorts stably and returns the number of inversions.** -/
theorem mergeSort_spec (trans : ∀ a b c, le a b → le b c → le a c) (total : ∀ a b, le a b || le b a) (arr : List T)
    (hsize : arr.length < 2 ^ 31) (fuel : Nat) (hfuel : arr.length ≤ fuel) :
    ∃ out, mergeSort fuel le arr = some (out, (inversions le arr : Int)) ∧ StablySorts le out arr := by
  refine ⟨arr.mergeSort le, ?_, stablySorts_mergeSort trans total arr⟩
  cases arr with
  | nil => simp [mergeSort]
  | cons x arr =>
    have hrange := mergeSortRange_eq trans total fuel [] [] (List.cons_ne_nil x arr) hfuel
    have hfit : CInt.fit (CInt.ofSize (x :: arr).length - 1) = some (((x :: arr).length : Int) - 1) := by
      rw [CInt.ofSize_of_lt hsize]
      exact CInt.fit_of (by omega) (by omega)
    simp only [mergeSort, hfit, List.isEmpty_cons, Option.bind_eq_bind, Option.bind_some]
    simpa using hrange

example : mergeSort 8 (· ≤ ·) [38, 27, 43, 3, 9, 82, 10] = some ([3, 9, 10, 27, 38, 43, 82], 11) := by decide

theorem mergeSort_spec_pairs : ∃ out, mergeSort 3 (fun x y : Nat × Nat => x.1 ≤ y.1) [(3, 0), (1, 1), (3, 2)] =
      some (out, (inversions (fun x y : Nat × Nat => x.1 ≤ y.1) [(3, 0), (1, 1), (3, 2)] : Int)) ∧
    StablySorts (fun x y : Nat × Nat => x.1 ≤ y.1) out [(3, 0), (1, 1), (3, 2)] :=
  mergeSort_spec (fun a b c => by simpa using Nat.le_trans)
    (fun a b => by simpa using Nat.le_total a.1 b.1) _ (by decide) 3 (by decide)

/-- The last index of `2 ^ 31` elements overflows. -/
theorem mergeSort_long : ¬ ∀ arr : List Nat, ∃ fuel out, mergeSort fuel (· ≤ ·) arr =
    some (out, (inversions (· ≤ ·) arr : Int)) ∧ StablySorts (· ≤ ·) out arr := by
  intro h
  obtain ⟨k, hk⟩ : ∃ k : Nat, k = 2 ^ 31 := ⟨_, rfl⟩
  obtain ⟨fuel, out, hrun, -⟩ := h (List.replicate k 0)
  have hne : (List.replicate k 0).isEmpty = false := by
    rw [List.isEmpty_eq_false_iff]
    exact List.ne_nil_of_length_pos (by rw [List.length_replicate]; omega)
  have hfit : CInt.fit (CInt.ofSize (List.replicate k 0).length - 1) = none := by
    rw [List.length_replicate, CInt.ofSize_of_le (by omega) (by omega)]
    exact CInt.fit_of_lt (by omega)
  rw [mergeSort, hne, if_neg Bool.false_ne_true, hfit] at hrun
  cases hrun

end Playground.MergeSort
