import Playground.Strategy

/-!
# The sorting strategies sort

The vector is followed through each algorithm as the concatenation of its
pieces. A round of the bubble sort puts the largest of the unsorted piece in
front of the sorted one; a call of the quicksort rearranges the piece between
its bounds and nothing else.
-/

namespace Playground.Strategy

open Loop (Outcome)
open Sorting (Sorts)

/-! ## Bubble sort -/

namespace BubbleSort

/-- Inside the inner loop: `x` is the largest of what has been passed, `c` is
still to come and `t` is sorted. -/
def Bubbling (m t c : List Int) (s : Pass) : Prop :=
  ∃ p x, s.data = p ++ x :: c ++ t ∧ s.k = p.length ∧ (∀ y ∈ p, y ≤ x) ∧ (p ++ x :: c).Perm m

theorem inner_nil {m t : List Int} (s : Pass) (h : Bubbling m t [] s) : inner t.length s = .exit := by
  obtain ⟨p, x, hd, hk, -, -⟩ := h
  have hlen : ¬ s.k + 1 < s.data.length - t.length := by
    rw [hd, hk]
    simp
    omega
  simp [inner, hlen]

theorem inner_cons {m t : List Int} (b : Int) (c : List Int) (s : Pass) (h : Bubbling m t (b :: c) s) :
    ∃ s', inner t.length s = .next s' ∧ Bubbling m t c s' := by
  obtain ⟨p, x, hd, hk, hle, hperm⟩ := h
  have hlen : s.k + 1 < s.data.length - t.length := by
    rw [hd, hk]
    simp
    omega
  have hx : s.data[s.k]? = some x := by simp [hd, hk]
  have hb : s.data[s.k + 1]? = some b := by simp [hd, hk]
  by_cases hlt : x > b
  · have hswap : Sorting.swap s.data s.k (s.k + 1) = some (p ++ b :: x :: c ++ t) := by
      have hpieces := Sorting.swap_pieces p [] (c ++ t) x b
      simpa [hd, hk] using hpieces
    refine ⟨{ data := p ++ b :: x :: c ++ t, k := s.k + 1 }, ?_, ?_⟩
    · simp [inner, hlen, hx, hb, hlt, hswap, Outcome.ofOption]
    refine ⟨p ++ [b], x, by simp, by simp [hk], ?_, ?_⟩
    · exact List.forall_mem_append.mpr ⟨hle, List.forall_mem_singleton.mpr hlt.le⟩
    · have hflip : (p ++ b :: x :: c).Perm (p ++ x :: b :: c) := (List.Perm.swap x b c).append_left p
      simpa using hflip.trans hperm
  · refine ⟨{ s with k := s.k + 1 }, by simp [inner, hlen, hx, hb, hlt, Outcome.ofOption], ?_⟩
    have hxb : x ≤ b := not_lt.mp hlt
    have hpb : ∀ y ∈ p, y ≤ b := fun y hy => (hle y hy).trans hxb
    refine ⟨p ++ [x], b, by simp [hd], by simp [hk], ?_, by simpa using hperm⟩
    exact List.forall_mem_append.mpr ⟨hpb, List.forall_mem_singleton.mpr hxb⟩

theorem inner_run {m t : List Int} (hm : m ≠ []) {n : Nat} (hn : m.length < n) :
    ∃ p x k, Loop.run (inner t.length) n { data := m ++ t } = some { data := p ++ x :: t, k } ∧
      (∀ y ∈ p, y ≤ x) ∧ (p ++ [x]).Perm m := by
  obtain ⟨x, c, rfl⟩ := List.exists_cons_of_ne_nil hm
  have hstart : Bubbling (x :: c) t c { data := x :: c ++ t } := ⟨[], x, rfl, rfl, by simp, .refl _⟩
  obtain ⟨s, hrun, p, z, hd, -, hle, hperm⟩ :=
    Loop.run_traverse inner_nil inner_cons hstart (Nat.lt_of_succ_lt hn)
  refine ⟨p, z, s.k, ?_, hle, hperm⟩
  have hs : s = { data := p ++ z :: t, k := s.k } := by
    cases s
    simpa using hd
  rw [hrun, hs]

/-- Between two rounds: `t` is the sorted end, above everything before it. -/
def Rounds (data : List Int) (m : List Int) (s : Pass) : Prop :=
  ∃ m' t, m'.length = m.length ∧ s.data = m' ++ t ∧ s.k = t.length ∧ t.Pairwise (· ≤ ·) ∧
    (∀ x ∈ m', ∀ y ∈ t, x ≤ y) ∧ (m' ++ t).Perm data

theorem outer_nil {data : List Int} (s : Pass) (h : Rounds data [] s) : outer s = .exit := by
  obtain ⟨m, t, hm, hd, hk, -⟩ := h
  have hlen : ¬ s.k < s.data.length := by
    rw [hd, hk, List.length_append, hm]
    simp
  simp [outer, hlen]

theorem outer_cons {data : List Int} (b : Int) (l : List Int) (s : Pass) (h : Rounds data (b :: l) s) :
    ∃ s', outer s = .next s' ∧ Rounds data l s' := by
  obtain ⟨m, t, hm, hd, hk, ht, hle, hperm⟩ := h
  have hne : m ≠ [] := by
    intro hnil
    simp [hnil] at hm
  have hlen : s.k < s.data.length := by
    rw [hd, hk, List.length_append, hm]
    simp
  obtain ⟨p, x, k, hrun, hpx, hpm⟩ :=
    inner_run (t := t) hne (n := s.data.length + 1) (by rw [hd, List.length_append]; omega)
  refine ⟨{ data := p ++ x :: t, k := s.k + 1 }, ?_, p, x :: t, ?_, rfl, by simp [hk], ?_, ?_, ?_⟩
  · rw [← hd, ← hk] at hrun
    simp [outer, hlen, hrun, Outcome.ofOption]
  · have hplen := hpm.length_eq
    simp [hm] at hplen
    exact hplen
  · have hxm : x ∈ m := hpm.mem_iff.mp (by simp)
    exact List.pairwise_cons.mpr ⟨hle x hxm, ht⟩
  · intro y hy z hz
    cases List.mem_cons.mp hz with
    | inl hzx => exact hzx ▸ hpx y hy
    | inr hz => exact hle y (hpm.mem_iff.mp (by simp [hy])) z hz
  · have hmt : (p ++ [x] ++ t).Perm (m ++ t) := hpm.append_right t
    simpa using hmt.trans hperm

theorem sort_sorts (data : List Int) : ∃ r, sort data = some r ∧ Sorts r data := by
  have hstart : Rounds data data { data } := ⟨data, [], rfl, by simp, rfl, .nil, by simp, by simp⟩
  obtain ⟨s, hrun, m, t, hm, hd, -, ht, -, hperm⟩ :=
    Loop.run_traverse outer_nil outer_cons hstart (Nat.lt_succ_self _)
  have hnil : m = [] := List.length_eq_zero_iff.mp hm
  have hdt : s.data = t := by simpa [hnil] using hd
  refine ⟨s.data, by simp [sort, hrun], ?_, hdt ▸ ht⟩
  simpa [hdt, hnil] using hperm

end BubbleSort

/-! ## Quicksort -/

namespace QuickSort

theorem elem_piece {d p q : List Int} {x i : Int} (hd : d = p ++ x :: q) (hi : i = p.length) :
    elem d i = some x := by
  simp [elem, hd, hi]

/-- Inside the scan of `c₀`: `a` is below the pivot, `b` is not, `c` is still to come. -/
def Scanning (p q c₀ : List Int) (pivot : Int) (c : List Int) (s : Scan) : Prop :=
  ∃ a b, s.d = p ++ a ++ b ++ c ++ pivot :: q ∧ s.i = p.length + a.length ∧ s.j = s.i + b.length ∧
    (∀ x ∈ a, x < pivot) ∧ (∀ x ∈ b, pivot ≤ x) ∧ (a ++ b ++ c).Perm c₀

theorem scan_nil {p q c₀ : List Int} {pivot : Int} (s : Scan) (h : Scanning p q c₀ pivot [] s) :
    scan pivot (p.length + c₀.length) s = .exit := by
  obtain ⟨a, b, -, hi, hj, -, -, hperm⟩ := h
  have hlen := hperm.length_eq
  simp only [List.append_nil, List.length_append] at hlen
  have hend : ¬ s.j < p.length + c₀.length := by omega
  simp [scan, hend]

theorem scan_cons {p q c₀ : List Int} {pivot : Int} (hfit : p.length + c₀.length < 2 ^ 31 - 1) (x : Int)
    (c : List Int) (s : Scan) (h : Scanning p q c₀ pivot (x :: c) s) :
    ∃ s', scan pivot (p.length + c₀.length) s = .next s' ∧ Scanning p q c₀ pivot c s' := by
  obtain ⟨a, b, hd, hi, hj, ha, hb, hperm⟩ := h
  have hlen := hperm.length_eq
  simp only [List.length_append, List.length_cons] at hlen
  have hgo : s.j < p.length + c₀.length := by omega
  have hx : elem s.d s.j = some x := by
    refine elem_piece (p := p ++ a ++ b) (q := c ++ pivot :: q) (by simp [hd]) ?_
    simp only [List.length_append]
    omega
  have hj' : CInt.fit (s.j + 1) = some (s.j + 1) := CInt.fit_of (by omega) (by omega)
  by_cases hlt : x < pivot
  · have hi' : CInt.fit (s.i + 1) = some (s.i + 1) := CInt.fit_of (by omega) (by omega)
    obtain ⟨b', hb', hswap⟩ := Sorting.swap_front (p ++ a) b (c ++ pivot :: q) x
    have hs : swap s.d s.i s.j = some (p ++ a ++ x :: b' ++ (c ++ pivot :: q)) := by
      have hin : 0 ≤ s.i ∧ 0 ≤ s.j := by omega
      have hni : s.i.toNat = (p ++ a).length := by simp only [List.length_append]; omega
      have hnj : s.j.toNat = (p ++ a).length + b.length := by simp only [List.length_append]; omega
      rw [swap, if_pos hin, hni, hnj, ← hswap, hd]
      simp
    refine ⟨_, by simp [scan, hgo, hx, hlt, hs, hi', hj', Outcome.ofOption]; rfl, ?_⟩
    have hlb := hb'.length_eq
    refine ⟨a ++ [x], b', by simp, by simp; omega, by simp; omega, ?_, fun y hy => hb y (hb'.mem_iff.mp hy), ?_⟩
    · exact List.forall_mem_append.mpr ⟨ha, List.forall_mem_singleton.mpr hlt⟩
    · have hfront : (x :: b' ++ c).Perm (b ++ x :: c) := ((hb'.append_right c).cons x).trans List.perm_middle.symm
      have hall := hfront.append_left a
      simp only [List.append_assoc, List.cons_append, List.nil_append] at hall hperm ⊢
      exact hall.trans hperm
  · refine ⟨{ s with j := s.j + 1 }, by simp [scan, hgo, hx, hlt, hj', Outcome.ofOption], ?_⟩
    refine ⟨a, b ++ [x], by simp [hd], hi, by simp; omega, ha, ?_, by simpa using hperm⟩
    exact List.forall_mem_append.mpr ⟨hb, List.forall_mem_singleton.mpr (not_lt.mp hlt)⟩

/-- The scan and the swap that follows it put the pivot where it belongs. -/
theorem partition_run (p q c : List Int) (pivot : Int) (hfit : p.length + c.length < 2 ^ 31 - 1) {n : Nat}
    (hn : c.length < n) :
    ∃ a b s, Loop.run (scan pivot (p.length + c.length)) n
        { d := p ++ c ++ pivot :: q, i := p.length, j := p.length } = some s ∧
      swap s.d s.i (p.length + c.length) = some (p ++ a ++ pivot :: b ++ q) ∧ s.i = p.length + a.length ∧
      (∀ x ∈ a, x < pivot) ∧ (∀ x ∈ b, pivot ≤ x) ∧ (a ++ b).Perm c := by
  have hstart : Scanning p q c pivot c { d := p ++ c ++ pivot :: q, i := p.length, j := p.length } :=
    ⟨[], [], by simp, by simp, by simp, by simp, by simp, by simp⟩
  obtain ⟨s, hrun, a, b, hd, hi, hj, ha, hb, hperm⟩ :=
    Loop.run_traverse scan_nil (scan_cons hfit) hstart hn
  obtain ⟨b', hb', hswap⟩ := Sorting.swap_front (p ++ a) b q pivot
  have hlen := hperm.length_eq
  simp only [List.append_nil, List.length_append] at hlen hperm
  refine ⟨a, b', s, hrun, ?_, hi, ha, fun x hx => hb x (hb'.mem_iff.mp hx), (hb'.append_left a).trans hperm⟩
  have hin : 0 ≤ s.i ∧ 0 ≤ (p.length : Int) + c.length := by omega
  have hni : s.i.toNat = (p ++ a).length := by simp only [List.length_append]; omega
  have hnj : ((p.length : Int) + c.length).toNat = (p ++ a).length + b.length := by
    simp only [List.length_append]
    omega
  rw [swap, if_pos hin, hni, hnj, ← hswap, hd]
  simp

theorem qsort_stop {n : Nat} {d : List Int} {lo hi : Int} (h : lo ≥ hi) : qsort (n + 1) d lo hi = some d := if_pos h

theorem qsort_step {n : Nat} {d d₁ d₂ d₃ : List Int} {lo hi i j pivot : Int} {s : Scan} (hgo : ¬ lo ≥ hi)
    (hpivot : elem d hi = some pivot) (hrun : Loop.run (scan pivot hi) (n + 1) { d, i := lo, j := lo } = some s)
    (hswap : swap s.d s.i hi = some d₁) (hpred : CInt.fit (s.i - 1) = some i) (hleft : qsort n d₁ lo i = some d₂)
    (hsucc : CInt.fit (s.i + 1) = some j) (hright : qsort n d₂ j hi = some d₃) :
    qsort (n + 1) d lo hi = some d₃ := by
  simp [qsort, hgo, hpivot, hrun, hswap, hpred, hleft, hsucc, hright]

/-- A call sorts the piece `m` of the vector that its bounds enclose, and leaves the rest. -/
theorem qsort_sorts (n : Nat) (p m q : List Int) (hfit : p.length + m.length < 2 ^ 31) (hn : m.length < n) :
    ∃ r, qsort n (p ++ m ++ q) p.length (p.length + m.length - 1) = some (p ++ r ++ q) ∧ Sorts r m := by
  induction n generalizing p m q with
  | zero => exact absurd hn (Nat.not_lt_zero _)
  | succ n ih =>
    by_cases hm : m.length ≤ 1
    · have hstop : (p.length : Int) ≥ p.length + m.length - 1 := by omega
      exact ⟨m, qsort_stop hstop, .of_length_le_one hm⟩
    · have hne : m ≠ [] := by
        intro hnil
        simp [hnil] at hm
      obtain ⟨c, pivot, rfl⟩ := (List.eq_nil_or_concat' m).resolve_left hne
      rw [List.length_append, List.length_singleton] at hfit hn hm
      have hd : p ++ (c ++ [pivot]) ++ q = p ++ c ++ pivot :: q := by simp
      have hhi : (p.length : Int) + (c ++ [pivot]).length - 1 = p.length + c.length := by
        rw [List.length_append, List.length_singleton]
        omega
      have hgo : ¬ (p.length : Int) ≥ p.length + c.length := by omega
      have hpivot : elem (p ++ c ++ pivot :: q) (p.length + c.length) = some pivot := elem_piece rfl (by simp)
      obtain ⟨a, b, s, hrun, hswap, hi, ha, hb, hperm⟩ :=
        partition_run p q c pivot (by omega) (n := n + 1) (by omega)
      have hlen := hperm.length_eq
      rw [List.length_append] at hlen
      obtain ⟨ra, hleft, hsa⟩ := ih p a (pivot :: b ++ q) (by omega) (by omega)
      have hla := hsa.perm.length_eq
      obtain ⟨rb, hright, hsb⟩ := ih (p ++ ra ++ [pivot]) b q (by simp; omega) (by omega)
      have hpred : CInt.fit (s.i - 1) = some ((p.length : Int) + a.length - 1) := by
        rw [hi]
        exact CInt.fit_of (by omega) (by omega)
      have hsucc : CInt.fit (s.i + 1) = some ((p ++ ra ++ [pivot]).length : Int) := by
        have hlo : s.i + 1 = ((p ++ ra ++ [pivot]).length : Int) := by
          simp only [List.length_append, List.length_singleton]
          omega
        rw [← hlo]
        exact CInt.fit_of (by omega) (by omega)
      have hbound : ((p ++ ra ++ [pivot]).length : Int) + b.length - 1 = p.length + c.length := by
        simp only [List.length_append, List.length_singleton]
        omega
      have hleft' : qsort n (p ++ a ++ pivot :: b ++ q) p.length (p.length + a.length - 1) =
          some (p ++ ra ++ [pivot] ++ b ++ q) := by simpa using hleft
      rw [hbound] at hright
      refine ⟨ra ++ pivot :: rb, ?_, ?_⟩
      · rw [hd, hhi]
        rw [qsort_step hgo hpivot hrun hswap hpred hleft' hsucc hright]
        simp
      · refine (hsa.pivot hsb (fun x hx => (ha x hx).le) hb).of_perm ?_
        exact List.perm_middle.trans ((hperm.cons pivot).trans (List.perm_append_singleton pivot c).symm)

theorem sort_eq {data : List Int} (h : data ≠ []) :
    sort data = (CInt.fit (CInt.ofSize data.length - 1)).bind fun hi => qsort (data.length + 1) data 0 hi := by
  have hne : ¬ data.isEmpty := by simpa using h
  exact if_neg hne

/-- What the cast of the size leaves of the vector is sorted, the rest stays. -/
theorem sort_run {data : List Int} (hc : CInt.ofSize data.length ≠ -2 ^ 31) :
    ∃ r, sort data = some (r ++ data.drop (CInt.ofSize data.length).toNat) ∧
      Sorts r (data.take (CInt.ofSize data.length).toNat) := by
  have hlo := CInt.le_ofSize data.length
  have hhi := CInt.ofSize_lt data.length
  have hle := CInt.ofSize_le data.length
  by_cases hne : data = []
  · subst hne
    exact ⟨[], rfl, .refl _, .nil⟩
  · rw [sort_eq hne]
    generalize CInt.ofSize data.length = c at *
    rw [CInt.fit_of (by omega) (by omega), Option.bind_some]
    by_cases hpos : 0 ≤ c
    · have htake : (data.take c.toNat).length = c.toNat := by
        rw [List.length_take]
        omega
      obtain ⟨r, hrun, hs⟩ := qsort_sorts (data.length + 1) [] (data.take c.toNat) (data.drop c.toNat)
        (by rw [List.length_nil]; omega) (by omega)
      have hbound : (([] : List Int).length : Int) + (data.take c.toNat).length - 1 = c - 1 := by
        rw [htake, List.length_nil]
        omega
      rw [hbound, List.nil_append, List.take_append_drop] at hrun
      exact ⟨r, hrun, hs⟩
    · have hzero : c.toNat = 0 := by omega
      refine ⟨[], ?_, ?_⟩
      · rw [qsort_stop (by omega), hzero]
        rfl
      · rw [hzero]
        exact ⟨.refl _, .nil⟩

end QuickSort

/-! ## Merge sort -/

namespace MergeSort

theorem merge_sorts {left right l l' : List Int} (data : List Int) (h : Sorts left l) (h' : Sorts right l')
    (hlen : (l ++ l').length = data.length) : ∃ r, merge left right data = some r ∧ Sorts r (l ++ l') := by
  have hs := h.merge h'
  have hfull : (List.merge left right (· ≤ ·)).length = data.length := hs.perm.length_eq.trans hlen
  refine ⟨List.merge left right (· ≤ ·), ?_, hs⟩
  simp only [merge, hfull, List.drop_length, List.append_nil]
  exact if_pos ⟨h.sorted, h'.sorted, Nat.le_refl _⟩

theorem sortRec_sorts (n : Nat) (data : List Int) (hn : data.length < n) :
    ∃ r, sortRec n data = some r ∧ Sorts r data := by
  induction n generalizing data with
  | zero => exact absurd hn (Nat.not_lt_zero _)
  | succ n ih =>
    by_cases hlen : data.length ≤ 1
    · exact ⟨data, by simp [sortRec, hlen], .of_length_le_one hlen⟩
    · obtain ⟨left, hleft, hl⟩ := ih (data.take (data.length / 2)) (by simp; omega)
      obtain ⟨right, hright, hr⟩ := ih (data.drop (data.length / 2)) (by simp; omega)
      obtain ⟨r, hmerge, hs⟩ := merge_sorts data hl hr (by rw [List.take_append_drop])
      rw [List.take_append_drop] at hs
      exact ⟨r, by simp [sortRec, hlen, hleft, hright, hmerge], hs⟩

theorem sort_sorts (data : List Int) : ∃ r, sort data = some r ∧ Sorts r data :=
  sortRec_sorts _ data (Nat.lt_succ_self _)

end MergeSort

/-! ## The strategies are interchangeable -/

/-- From index `k` on the vector is in order, and nothing there is smaller than anything before. -/
def Settled (data : List Int) (k : Nat) : Prop :=
  (data.drop k).Pairwise (· ≤ ·) ∧ ∀ x ∈ data.take k, ∀ y ∈ data.drop k, x ≤ y

theorem quickSort_sorts_iff (data : List Int) :
    (∃ r, Sorts r data ∧ QuickSort.sort data = some r) ↔
      CInt.ofSize data.length ≠ -2 ^ 31 ∧ Settled data (CInt.ofSize data.length).toNat := by
  by_cases hc : CInt.ofSize data.length = -2 ^ 31
  · have hne : data ≠ [] := by
      intro hnil
      rw [hnil, List.length_nil, CInt.ofSize_of_lt (by omega)] at hc
      omega
    have hfault : QuickSort.sort data = none := by
      rw [QuickSort.sort_eq hne, hc, CInt.fit_of_lt (by omega), Option.bind_none]
    simp [hc, hfault]
  · obtain ⟨r, hrun, hs⟩ := QuickSort.sort_run hc
    have hsplit := hs.append_iff (m := data.drop (CInt.ofSize data.length).toNat)
    rw [List.take_append_drop] at hsplit
    constructor
    · intro ⟨r', hs', hrun'⟩
      rw [hrun] at hrun'
      cases hrun'
      exact ⟨hc, hsplit.mp hs'⟩
    · intro ⟨_, hset⟩
      exact ⟨_, hsplit.mpr hset, hrun⟩

theorem settled_of_lt {data : List Int} (h : data.length < 2 ^ 31) :
    Settled data (CInt.ofSize data.length).toNat := by
  rw [CInt.ofSize_of_lt h]
  simp [Settled]

/-- **The strategies return the same sorted vector exactly where the cast of
the size to `int` does no harm**: it is not the least `int`, and what it cuts
off is in its place already. Below `2 ^ 31` elements it cuts nothing off. -/
theorem strategies_agree_iff (data : List Int) :
    (∃ r, Sorts r data ∧ ∀ s : SortStrategy, s.sort data = some r) ↔
      CInt.ofSize data.length ≠ -2 ^ 31 ∧ Settled data (CInt.ofSize data.length).toNat := by
  rw [← quickSort_sorts_iff]
  constructor
  · intro ⟨r, hs, hall⟩
    exact ⟨r, hs, hall .quickSort⟩
  · intro ⟨r, hs, hquick⟩
    obtain ⟨r₁, hbubble, hs₁⟩ := BubbleSort.sort_sorts data
    obtain ⟨r₂, hmerge, hs₂⟩ := MergeSort.sort_sorts data
    refine ⟨r, hs, fun s => ?_⟩
    cases s with
    | bubbleSort => exact hs.unique hs₁ ▸ hbubble
    | quickSort => exact hquick
    | mergeSort => exact hs.unique hs₂ ▸ hmerge

theorem strategies_sort {data : List Int} (h : data.length < 2 ^ 31) (s : SortStrategy) :
    ∃ r, s.sort data = some r ∧ Sorts r data := by
  cases s with
  | bubbleSort => exact BubbleSort.sort_sorts data
  | mergeSort => exact MergeSort.sort_sorts data
  | quickSort =>
    have hc : CInt.ofSize data.length ≠ -2 ^ 31 := by
      rw [CInt.ofSize_of_lt h]
      omega
    obtain ⟨r, hs, hrun⟩ := (quickSort_sorts_iff data).mpr ⟨hc, settled_of_lt h⟩
    exact ⟨r, hrun, hs⟩

example : ∀ s : SortStrategy, s.sort [5, 3, 8, 1, 2] = some [1, 2, 3, 5, 8] := by
  intro s
  cases s with
  | bubbleSort => decide
  | quickSort => decide
  | mergeSort => simp [SortStrategy.sort, MergeSort.sort, MergeSort.sortRec, MergeSort.merge]

theorem quickSort_wraps {k : Nat} (hk : k = 2 ^ 31) :
    ¬ ∃ r, Sorts r (1 :: List.replicate k 0) ∧ QuickSort.sort (1 :: List.replicate k 0) = some r := by
  rw [quickSort_sorts_iff]
  intro ⟨_, hset, _⟩
  have hlen : (1 :: List.replicate k (0 : Int)).length = k + 1 := by rw [List.length_cons, List.length_replicate]
  have hc : (CInt.ofSize (k + 1)).toNat = 0 := by
    rw [CInt.ofSize_of_le (by omega) (by omega)]
    omega
  rw [hlen, hc, List.drop_zero] at hset
  have hle := (List.pairwise_cons.mp hset).1 0 (List.mem_replicate.mpr ⟨by omega, rfl⟩)
  omega

/-- A vector of `2 ^ 31 + 1` elements: its size is negative as an `int`, and quicksort leaves it as it is. -/
theorem strategies_disagree :
    ¬ ∃ r, Sorts r (1 :: List.replicate (2 ^ 31) 0) ∧
      ∀ s : SortStrategy, s.sort (1 :: List.replicate (2 ^ 31) 0) = some r := by
  intro ⟨r, hs, hall⟩
  exact quickSort_wraps (k := 2 ^ 31) rfl ⟨r, hs, hall .quickSort⟩

end Playground.Strategy
