import Mathlib.Data.List.Infix
import Mathlib.Data.List.PeriodicityLemma

/-!
# Borders

A border of a word is a proper prefix of it that is also a suffix. While a
text is scanned for a pattern, what matters of the part that has been read is
which prefixes of the pattern it ends with: the longest one, and from there on
its borders.
-/

namespace Border

variable {α : Type*}

/-- The prefix of `p` of length `j` ends at index `i` of the text `t`. -/
def EndsAt (p t : List α) (i j : Nat) : Prop := j ≤ p.length ∧ p.take j <:+ t.take i

structure Longest (p t : List α) (i j : Nat) : Prop where
  ends : EndsAt p t i j
  longest : ∀ k, EndsAt p t i k → k ≤ j

/-- No prefix longer than `j` that ends at index `i` goes on like the text. -/
structure Scanned (p t : List α) (i j : Nat) : Prop where
  ends : EndsAt p t i j
  longest : ∀ k x, EndsAt p t i k → p[k]? = some x → t[i]? = some x → k ≤ j

/-- The prefix of length `b` is the longest border of the prefix of length `j`. -/
structure LongestBorder (p : List α) (j b : Nat) : Prop where
  lt : b < j
  border : p.take b <:+ p.take j
  longest : ∀ k < j, p.take k <:+ p.take j → k ≤ b

variable {p t : List α} {i j k b : Nat} {x : α}

theorem endsAt_zero (p t : List α) (i : Nat) : EndsAt p t i 0 := ⟨Nat.zero_le _, by simp⟩

theorem endsAt_succ (hx : t[i]? = some x) : EndsAt p t (i + 1) (j + 1) ↔ EndsAt p t i j ∧ p[j]? = some x := by
  unfold EndsAt
  rw [List.take_add_one (l := t), hx, List.take_add_one (l := p)]
  cases hj : p[j]? with
  | none =>
    have hle := List.getElem?_eq_none_iff.mp hj
    simp only [reduceCtorEq, and_false, iff_false, not_and]
    omega
  | some y =>
    have hlt := (List.getElem?_eq_some_iff.mp hj).1
    have hlen : [y].length = [x].length := rfl
    simp only [Option.toList_some, List.suffix_append_inj_of_length_eq hlen, Option.some.injEq,
      List.cons.injEq, and_true]
    constructor
    · intro ⟨_, hs, he⟩
      exact ⟨⟨hlt.le, hs⟩, he⟩
    · intro ⟨⟨_, hs⟩, he⟩
      exact ⟨hlt, hs, he⟩

theorem Longest.scanned (h : Longest p t i j) : Scanned p t i j :=
  ⟨h.ends, fun k _ hk _ _ => h.longest k hk⟩

/-! ## Reading on -/

theorem Scanned.advance (h : Scanned p t i j) (hp : p[j]? = some x) (ht : t[i]? = some x) :
    Longest p t (i + 1) (j + 1) := by
  refine ⟨(endsAt_succ ht).mpr ⟨h.ends, hp⟩, fun k hk => ?_⟩
  cases k with
  | zero => omega
  | succ k =>
    obtain ⟨hk, hx⟩ := (endsAt_succ ht).mp hk
    exact Nat.succ_le_succ (h.longest k x hk hx ht)

theorem Scanned.skip (h : Scanned p t i 0) (hp : p[0]? ≠ some x) (ht : t[i]? = some x) : Longest p t (i + 1) 0 := by
  refine ⟨endsAt_zero p t _, fun k hk => ?_⟩
  cases k with
  | zero => exact Nat.le_refl _
  | succ k =>
    obtain ⟨hk, hx⟩ := (endsAt_succ ht).mp hk
    have hzero := Nat.le_zero.mp (h.longest k x hk hx ht)
    exact absurd (hzero ▸ hx) hp

/-- When the prefix cannot go on, the next one to try is its longest border. -/
theorem Scanned.fallBack (h : Scanned p t i j) (hb : LongestBorder p j b)
    (hp : ∀ x, t[i]? = some x → p[j]? ≠ some x) : Scanned p t i b := by
  refine ⟨⟨hb.lt.le.trans h.ends.1, hb.border.trans h.ends.2⟩, fun k x hk hx ht => ?_⟩
  have hle := h.longest k x hk hx ht
  have hne : k ≠ j := by
    intro he
    exact hp x ht (he ▸ hx)
  have hlt : k < j := by omega
  refine hb.longest k hlt (List.suffix_of_suffix_length_le hk.2 h.ends.2 ?_)
  rw [List.length_take, List.length_take]
  omega

/-! ## The borders of the prefixes -/

/-- A pattern that is scanned for itself, from its second letter on, ends with its borders. -/
theorem endsAt_tail (hi : i < p.length) : EndsAt p p.tail i k ↔ k ≤ i ∧ p.take k <:+ p.take (i + 1) := by
  cases p with
  | nil => cases hi
  | cons a q =>
    rw [List.length_cons] at hi
    unfold EndsAt
    rw [List.tail_cons, List.take_succ_cons, List.suffix_cons_iff, List.length_cons]
    constructor
    · intro ⟨hk, hs⟩
      refine ⟨?_, Or.inr hs⟩
      have hle := hs.length_le
      rw [List.length_take, List.length_take, List.length_cons] at hle
      omega
    · intro ⟨hk, hs⟩
      refine ⟨by omega, hs.resolve_left fun he => ?_⟩
      have hlen := congrArg List.length he
      rw [List.length_take, List.length_cons, List.length_cons, List.length_take] at hlen
      omega

theorem Longest.border (h : Longest p p.tail i j) (hi : i < p.length) : LongestBorder p (i + 1) j := by
  obtain ⟨hle, hs⟩ := (endsAt_tail hi).mp h.ends
  exact ⟨Nat.lt_succ_of_le hle, hs, fun k hk hk' => h.longest k ((endsAt_tail hi).mpr ⟨Nat.le_of_lt_succ hk, hk'⟩)⟩

theorem longestBorder_one (p : List α) : LongestBorder p 1 0 := by
  exact ⟨Nat.zero_lt_one, by simp, fun k hk _ => Nat.le_of_lt_succ hk⟩

theorem LongestBorder.isGreatest (h : LongestBorder p (i + 1) b) :
    IsGreatest {k | k ≤ i ∧ p.take k <:+ p.take (i + 1)} b :=
  ⟨⟨Nat.le_of_lt_succ h.lt, h.border⟩, fun k hk => h.longest k (Nat.lt_succ_of_le hk.1) hk.2⟩

/-! ## Periods -/

theorem hasPeriod_iff_suffix {w : List α} (hk : k ≤ w.length) : w.HasPeriod (w.length - k) ↔ w.take k <:+ w := by
  rw [List.suffix_iff_eq_drop, List.length_take, Nat.min_eq_left hk]
  have hdrop : (w.drop (w.length - k)).length = k := by
    rw [List.length_drop]
    omega
  have hsplit : w.HasPeriod (w.length - k) ↔ w.drop (w.length - k) <+: w := by
    constructor
    · exact fun h => h.drop_prefix _
    · intro h
      have hpre := (List.prefix_append_right_inj (w.take (w.length - k))).mpr h
      rwa [List.take_append_drop] at hpre
  rw [hsplit, List.prefix_iff_eq_take, hdrop]
  exact eq_comm

theorem hasPeriod_replicate (u : List α) (c : Nat) : (List.replicate c u).flatten.HasPeriod u.length := by
  cases c with
  | zero => simp
  | succ c =>
    have htake : (List.replicate (c + 1) u).flatten.take u.length = u := by simp [List.replicate_succ]
    have hcomm : u ++ (List.replicate (c + 1) u).flatten = (List.replicate (c + 1) u).flatten ++ u := by
      have hsucc := congrArg List.flatten (List.replicate_succ' (n := c + 1) (a := u))
      simpa [List.replicate_succ] using hsucc
    unfold List.HasPeriod
    rw [htake, hcomm]
    exact List.prefix_append _ _

theorem eq_replicate_of_hasPeriod {w : List α} {d c : Nat} (hlen : w.length = d * c) (h : w.HasPeriod d) :
    w = (List.replicate c (w.take d)).flatten := by
  induction c generalizing w with
  | zero => simpa using hlen
  | succ c ih =>
    have hdrop : (w.drop d).length = d * c := by
      rw [List.length_drop, hlen, Nat.mul_succ, Nat.add_sub_cancel]
    have hrest := ih hdrop <| h.infix (List.drop_suffix d w).isInfix
    have hsame : List.replicate c ((w.drop d).take d) = List.replicate c (w.take d) := by
      cases c with
      | zero => rfl
      | succ c =>
        have hle : d ≤ (w.drop d).length := by
          rw [hdrop]
          exact Nat.le_mul_of_pos_right d (Nat.succ_pos c)
        have htake := (h.drop_prefix d).take d
        have hlens : ((w.drop d).take d).length = (w.take d).length := by
          rw [List.length_take, List.length_take, Nat.min_eq_left hle, Nat.min_eq_left]
          rw [hlen]
          exact Nat.le_mul_of_pos_right d (Nat.succ_pos _)
        rw [htake.eq_of_length hlens]
    rw [hsame] at hrest
    calc w = w.take d ++ w.drop d := (List.take_append_drop d w).symm
      _ = (List.replicate (c + 1) (w.take d)).flatten := by
        rw [List.replicate_succ, List.flatten_cons, ← hrest]

theorem eq_replicate_iff {w : List α} {d c : Nat} (hlen : w.length = d * c) (hc : 0 < c) :
    w = (List.replicate c (w.take d)).flatten ↔ w.HasPeriod d := by
  refine ⟨fun h => ?_, eq_replicate_of_hasPeriod hlen⟩
  have hd : (w.take d).length = d := by
    rw [List.length_take, hlen]
    exact Nat.min_eq_left (Nat.le_mul_of_pos_right d hc)
  have hper := hasPeriod_replicate (w.take d) c
  rwa [← h, hd] at hper

theorem LongestBorder.least (h : LongestBorder p p.length b) {d : Nat} (hd : 0 < d) (hper : p.HasPeriod d) :
    p.length - b ≤ d := by
  by_contra hlt
  have hle : p.length - d ≤ p.length := Nat.sub_le _ _
  have hborder := (hasPeriod_iff_suffix hle).mp (by rwa [Nat.sub_sub_self (by omega)])
  rw [← List.take_length (l := p)] at hborder
  have hb := h.longest (p.length - d) (by omega) (by simpa using hborder)
  omega

theorem LongestBorder.hasPeriod (h : LongestBorder p p.length b) : p.HasPeriod (p.length - b) := by
  have hborder := h.border
  rw [List.take_length] at hborder
  exact (hasPeriod_iff_suffix h.lt.le).mpr hborder

theorem LongestBorder.dvd (h : LongestBorder p p.length b) {d : Nat} (hper : p.HasPeriod d) (hd : d ∣ p.length)
    (hne : d ≠ p.length) : p.length - b ∣ d := by
  have hb := h.lt
  obtain ⟨c, hc⟩ := hd
  have hd : 0 < d := by
    rcases Nat.eq_zero_or_pos d with rfl | hd
    · omega
    · exact hd
  have hle := h.least hd hper
  have htwo : d + d ≤ p.length := by
    rcases c with _ | _ | c
    · omega
    · omega
    · rw [hc, Nat.mul_succ, Nat.mul_succ]
      omega
  have hgcd := h.hasPeriod.gcd hper (by omega)
  have hpos : 0 < (p.length - b).gcd d := Nat.gcd_pos_of_pos_right _ hd
  have hleast := h.least hpos hgcd
  have heq : (p.length - b).gcd d = p.length - b := Nat.le_antisymm (Nat.gcd_le_left d (by omega)) hleast
  exact Nat.gcd_eq_left_iff_dvd.mp heq

end Border
