import Playground.TwoPointers

/-!
# The three-way partition

The vector is followed as four regions: the zeros, the ones, what has not been
looked at, and the other values. Each round takes one element off the third.
-/

namespace Playground.TwoPointers

structure Regions (nums : List Int) (zeros ones : Nat) (unseen others : List Int) (s : Flag) : Prop where
  nums_eq : s.nums = List.replicate zeros 0 ++ List.replicate ones 1 ++ unseen ++ others
  low : s.low = zeros
  mid : s.mid = zeros + ones
  high : s.high = zeros + ones + unseen.length - 1
  others : ∀ x ∈ others, x ≠ 0 ∧ x ≠ 1
  perm : s.nums.Perm nums

namespace Regions

variable {nums unseen others : List Int} {zeros ones : Nat} {s : Flag} {x : Int}

theorem length_lt (h : Regions nums zeros ones unseen others s) (hsize : nums.length < 2 ^ 31) :
    zeros + ones + unseen.length < 2 ^ 31 := by
  have hlen := h.perm.length_eq
  simp only [h.nums_eq, List.length_append, List.length_replicate] at hlen
  omega

theorem swap_eq {i j : Nat} (l : List Int) {l' : List Int} (h : Sorting.swap l i j = some l') {a b : Int}
    (ha : a = i) (hb : b = j) : swap l a b = some l' := by
  subst ha hb
  rw [swap, if_pos ⟨by omega, by omega⟩]
  exact h

theorem mid_eq (h : Regions nums zeros ones unseen others s) : s.mid = ((zeros + ones : Nat) : Int) := by
  rw [h.mid]
  omega

theorem at_mid (h : Regions nums zeros ones (x :: unseen) others s) : Vec.at? s.nums s.mid = some x := by
  rw [h.mid_eq, Vec.at?_natCast, h.nums_eq]
  simp

theorem zero (h : Regions nums zeros ones (0 :: unseen) others s) (hsize : nums.length < 2 ^ 31) :
    ∃ s', flagRound s = some s' ∧ Regions nums (zeros + 1) ones unseen others s' := by
  have hlt := h.length_lt hsize
  rw [List.length_cons] at hlt
  obtain ⟨b, hb, hswap⟩ := Sorting.swap_front (List.replicate zeros 0) (List.replicate ones 1) (unseen ++ others)
    (0 : Int)
  obtain rfl := List.perm_replicate.mp hb
  have hnums := h.nums_eq
  rw [List.append_assoc _ (0 :: unseen), List.cons_append] at hnums
  rw [List.length_replicate, List.length_replicate] at hswap
  have hs := swap_eq _ hswap h.low h.mid_eq
  rw [← hnums] at hs
  have hlow : CInt.fit (s.low + 1) = some ((zeros + 1 : Nat) : Int) := by
    rw [h.low]
    exact CInt.fit_succ (by omega)
  have hmid : CInt.fit (s.mid + 1) = some (zeros + 1 + ones : Int) := by
    rw [h.mid, CInt.fit_of (by omega) (by omega), Option.some_inj]
    omega
  refine ⟨_, by simp [flagRound, h.at_mid, hs, hlow, hmid]; rfl, ?_⟩
  refine ⟨?_, rfl, by simp, ?_, h.others, ?_⟩
  · simp [List.replicate_succ']
  · have hhigh := h.high
    simp at hhigh ⊢
    omega
  · refine List.Perm.trans ?_ h.perm
    rw [hnums]
    have hmove : (0 :: List.replicate ones 1 ++ (unseen ++ others)).Perm
        (List.replicate ones 1 ++ 0 :: (unseen ++ others)) := List.perm_middle.symm
    simpa using hmove.append_left (List.replicate zeros 0)

theorem one (h : Regions nums zeros ones (1 :: unseen) others s) (hsize : nums.length < 2 ^ 31) :
    ∃ s', flagRound s = some s' ∧ Regions nums zeros (ones + 1) unseen others s' := by
  have hlt := h.length_lt hsize
  rw [List.length_cons] at hlt
  have hmid : CInt.fit (s.mid + 1) = some (zeros + (ones + 1 : Nat) : Int) := by
    rw [h.mid, CInt.fit_of (by omega) (by omega), Option.some_inj]
    omega
  refine ⟨{ s with mid := zeros + (ones + 1 : Nat) }, by simp [flagRound, h.at_mid, hmid], ?_⟩
  refine ⟨?_, h.low, rfl, ?_, h.others, h.perm⟩
  · simp [h.nums_eq, List.replicate_succ']
  · have hhigh := h.high
    simp at hhigh ⊢
    omega

theorem other (h : Regions nums zeros ones (x :: unseen) others s) (hsize : nums.length < 2 ^ 31) (hx : x ≠ 0)
    (hx' : x ≠ 1) : ∃ s' unseen', flagRound s = some s' ∧ unseen'.length = unseen.length ∧
      Regions nums zeros ones unseen' (x :: others) s' := by
  have hlt := h.length_lt hsize
  rw [List.length_cons] at hlt
  obtain ⟨b, hb, hswap⟩ := Sorting.swap_back (List.replicate zeros 0 ++ List.replicate ones 1) unseen others x
  rw [List.length_append, List.length_replicate, List.length_replicate] at hswap
  have hhigh := h.high
  rw [List.length_cons] at hhigh
  have hend : s.high = ((zeros + ones + unseen.length : Nat) : Int) := by omega
  have hs := swap_eq _ hswap h.mid_eq hend
  rw [← h.nums_eq] at hs
  have hfit : CInt.fit (s.high - 1) = some (zeros + ones + unseen.length - 1 : Int) := by
    rw [CInt.fit_of (by omega) (by omega), Option.some_inj]
    omega
  refine ⟨_, b, by simp [flagRound, h.at_mid, hx, hx', hs, hfit]; rfl, hb.length_eq, ?_⟩
  refine ⟨by simp, h.low, h.mid, by simp [hb.length_eq], List.forall_mem_cons.mpr ⟨⟨hx, hx'⟩, h.others⟩, ?_⟩
  refine List.Perm.trans ?_ h.perm
  rw [h.nums_eq]
  have hmove : (b ++ x :: others).Perm (x :: unseen ++ others) :=
    List.perm_middle.trans ((hb.append_right others).cons x)
  simpa using (hmove.append_left (List.replicate ones 1)).append_left (List.replicate zeros 0)

theorem round (h : Regions nums zeros ones unseen others s) (hsize : nums.length < 2 ^ 31) (hgo : s.mid ≤ s.high) :
    ∃ s', flagRound s = some s' ∧ ∃ zeros' ones' unseen' others', Regions nums zeros' ones' unseen' others' s' ∧
      unseen'.length < unseen.length := by
  cases unseen with
  | nil =>
    have hhigh := h.high
    have hmid := h.mid
    simp at hhigh
    omega
  | cons x unseen =>
    by_cases hx : x = 0
    · subst hx
      obtain ⟨s', hs, h'⟩ := h.zero hsize
      exact ⟨s', hs, _, _, _, _, h', Nat.lt_succ_self _⟩
    · by_cases hx' : x = 1
      · subst hx'
        obtain ⟨s', hs, h'⟩ := h.one hsize
        exact ⟨s', hs, _, _, _, _, h', Nat.lt_succ_self _⟩
      · obtain ⟨s', unseen', hs, hlen, h'⟩ := h.other hsize hx hx'
        exact ⟨s', hs, _, _, _, _, h', Nat.lt_succ_of_le hlen.le⟩

theorem eq_nil (h : Regions nums zeros ones unseen others s) (hend : ¬ s.mid ≤ s.high) : unseen = [] := by
  have hhigh := h.high
  have hmid := h.mid
  apply List.length_eq_zero_iff.mp
  omega

end Regions

/-- The zeros, the ones and the rest. -/
def Partitioned (out : List Int) : Prop :=
  ∃ zeros ones others, out = List.replicate zeros 0 ++ List.replicate ones 1 ++ others ∧ ∀ x ∈ others, x ≠ 0 ∧ x ≠ 1

theorem Partitioned.sorted {out : List Int} (h : Partitioned out) (hcolor : ∀ x ∈ out, x = 0 ∨ x = 1 ∨ x = 2) :
    out.Pairwise (· ≤ ·) := by
  obtain ⟨zeros, ones, others, rfl, hothers⟩ := h
  have htwo : ∀ x ∈ others, x = 2 := by
    intro x hx
    have hne := hothers x hx
    rcases hcolor x (List.mem_append_right _ hx) with h | h | h
    · exact absurd h hne.1
    · exact absurd h hne.2
    · exact h
  rw [List.eq_replicate_of_mem htwo]
  simp only [List.pairwise_append, List.pairwise_replicate, List.mem_append, List.mem_replicate]
  refine ⟨⟨.inr (Int.le_refl 0), .inr (Int.le_refl 1), ?_⟩, .inr (Int.le_refl 2), ?_⟩
  · rintro a ⟨-, rfl⟩ b ⟨-, rfl⟩
    decide
  · rintro a (⟨-, rfl⟩ | ⟨-, rfl⟩) b ⟨-, rfl⟩
    · decide
    · decide

theorem flag_run {nums : List Int} (hsize : nums.length < 2 ^ 31) {fuel : Nat} (hfuel : nums.length < fuel) :
    ∃ s zeros ones others, Loop.run flagBody fuel { nums, high := nums.length - 1 } = some s ∧
      Regions nums zeros ones [] others s := by
  have hinit : Regions nums 0 0 nums [] { nums, high := nums.length - 1 } :=
    ⟨by simp, rfl, rfl, by simp, by simp, .refl _⟩
  have hround : ∀ s : Flag, (∃ zeros ones unseen others, Regions nums zeros ones unseen others s) → s.mid ≤ s.high →
      ∃ s', flagRound s = some s' ∧ (∃ zeros ones unseen others, Regions nums zeros ones unseen others s') ∧
        (s'.high - s'.mid + 1).toNat < (s.high - s.mid + 1).toNat := by
    rintro s ⟨zeros, ones, unseen, others, h⟩ hgo
    obtain ⟨s', hs, zeros', ones', unseen', others', h', hlt⟩ := h.round hsize hgo
    refine ⟨s', hs, ⟨_, _, _, _, h'⟩, ?_⟩
    rw [h.high, h.mid, h'.high, h'.mid]
    omega
  obtain ⟨s, hrun, ⟨zeros, ones, unseen, others, h⟩, hend⟩ := Loop.run_while
    (fun s : Flag => (s.high - s.mid + 1).toNat) hround ⟨0, 0, nums, [], hinit⟩ (n := fuel) (by simp only; omega)
  obtain rfl := h.eq_nil hend
  exact ⟨s, zeros, ones, others, hrun, h⟩

/-- **The three-way partition**: the zeros, the ones, and the other values; sorted if these are all `2`. -/
theorem sortColors_partition (nums : List Int) (hsize : nums.length < 2 ^ 31) (fuel : Nat)
    (hfuel : nums.length < fuel) : ∃ out, sortColors fuel nums = some out ∧ out.Perm nums ∧ Partitioned out ∧
      ((∀ x ∈ nums, x = 0 ∨ x = 1 ∨ x = 2) → out.Pairwise (· ≤ ·)) := by
  obtain ⟨s, zeros, ones, others, hrun, h⟩ := flag_run hsize hfuel
  have hhigh : CInt.fit (CInt.ofSize nums.length - 1) = some ((nums.length : Int) - 1) := by
    rw [CInt.ofSize_of_lt hsize]
    exact CInt.fit_of (by omega) (by omega)
  have hpart : Partitioned s.nums := ⟨zeros, ones, others, by simpa using h.nums_eq, h.others⟩
  refine ⟨s.nums, by simp [sortColors, hhigh, hrun], h.perm, hpart, fun hcolor => ?_⟩
  exact hpart.sorted fun x hx => hcolor x (h.perm.mem_iff.mp hx)

example : sortColors 7 [2, 0, 2, 1, 1, 0] = some [0, 0, 1, 1, 2, 2] := by decide

theorem sortColors_partition_mixed : ∃ out, sortColors 5 [2, 7, 0, 1] = some out ∧ out.Perm [2, 7, 0, 1] ∧
    Partitioned out ∧ ((∀ x ∈ ([2, 7, 0, 1] : List Int), x = 0 ∨ x = 1 ∨ x = 2) → out.Pairwise (· ≤ ·)) :=
  sortColors_partition [2, 7, 0, 1] (by decide) 5 (by decide)

/-- The last index of `2 ^ 31` elements overflows. -/
theorem sortColors_long : ¬ ∀ nums : List Int, ∃ fuel out, sortColors fuel nums = some out ∧ out.Perm nums ∧
    Partitioned out ∧ ((∀ x ∈ nums, x = 0 ∨ x = 1 ∨ x = 2) → out.Pairwise (· ≤ ·)) := by
  intro h
  obtain ⟨k, hk⟩ : ∃ k : Nat, k = 2 ^ 31 := ⟨_, rfl⟩
  obtain ⟨fuel, out, hrun, -⟩ := h (List.replicate k 0)
  have hfit : CInt.fit (CInt.ofSize (List.replicate k (0 : Int)).length - 1) = none := by
    rw [List.length_replicate, CInt.ofSize_of_le (by omega) (by omega)]
    exact CInt.fit_of_lt (by omega)
  rw [sortColors, hfit] at hrun
  cases hrun

end Playground.TwoPointers
