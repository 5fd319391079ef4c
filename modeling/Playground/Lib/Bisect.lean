import Mathlib.Algebra.Order.Ring.Int
import Mathlib.Order.Bounds.Basic
import Mathlib.Tactic.Positivity
import Playground.Lib.Loop

/-!
# Bisection

A loop over the bounds of an interval of integers that asks a test about the
midpoint: the upper bound moves there if it passes, the lower one behind it if
it fails. With a test that is passed from some candidate on, the least of these
is left. `returns_iff` is about a test that may fault.
-/

namespace Bisect

open Loop (Outcome)

def mid (lo hi : Int) : Int := lo + (hi - lo) / 2

theorem le_mid {lo hi : Int} (h : lo ≤ hi) : lo ≤ mid lo hi := by
  unfold mid
  omega

theorem mid_lt {lo hi : Int} (h : lo < hi) : mid lo hi < hi := by
  unfold mid
  omega

def narrow (s : Int × Int) (passed : Bool) : Int × Int :=
  if passed then (s.1, mid s.1 s.2) else (mid s.1 s.2 + 1, s.2)

/-- The bounds lie in order between `lo` and `hi`. -/
structure Within (lo hi : Int) (s : Int × Int) : Prop where
  lo_le : lo ≤ s.1
  le : s.1 ≤ s.2
  le_hi : s.2 ≤ hi

section
variable {lo hi : Int} {s : Int × Int} {b : Bool}

theorem Within.mid_lt (h : Within lo hi s) (hlt : s.1 < s.2) : lo ≤ mid s.1 s.2 ∧ mid s.1 s.2 < hi :=
  ⟨Int.le_trans h.lo_le (le_mid h.le), Int.lt_of_lt_of_le (Bisect.mid_lt hlt) h.le_hi⟩

theorem Within.narrow (h : Within lo hi s) (hlt : s.1 < s.2) : Within lo hi (narrow s b) := by
  have hmid := h.mid_lt hlt
  cases b with
  | false => exact ⟨Int.le_add_one hmid.1, Bisect.mid_lt hlt, h.le_hi⟩
  | true => exact ⟨h.lo_le, le_mid h.le, Int.le_of_lt hmid.2⟩

theorem width_narrow (hlt : s.1 < s.2) :
    ((narrow s b).2 - (narrow s b).1).toNat < (s.2 - s.1).toNat := by
  have hle := le_mid (Int.le_of_lt hlt)
  have hmid := mid_lt hlt
  cases b with
  | false =>
    simp only [narrow, Bool.false_eq_true, if_false]
    omega
  | true =>
    simp only [narrow, if_true]
    omega

end

structure Bisects (body : Int × Int → Outcome (Int × Int)) (test : Int → Option Bool) (lo hi : Int) : Prop where
  exit : ∀ s, ¬ s.1 < s.2 → body s = .exit
  next : ∀ s, Within lo hi s → s.1 < s.2 → body s = .ofOption ((test (mid s.1 s.2)).map (narrow s))

def Round (test : Int → Option Bool) (s s' : Int × Int) : Prop :=
  s.1 < s.2 ∧ ∃ b, test (mid s.1 s.2) = some b ∧ s' = narrow s b

theorem Round.within {test : Int → Option Bool} {lo hi : Int} {s s' : Int × Int} (hr : Round test s s')
    (h : Within lo hi s) : Within lo hi s' := by
  obtain ⟨hlt, b, -, rfl⟩ := hr
  exact h.narrow hlt

theorem Round.width_lt {test : Int → Option Bool} {s s' : Int × Int} (hr : Round test s s') :
    (s'.2 - s'.1).toNat < (s.2 - s.1).toNat := by
  obtain ⟨hlt, b, -, rfl⟩ := hr
  exact width_narrow hlt

namespace Bisects

variable {body : Int × Int → Outcome (Int × Int)} {test : Int → Option Bool} {lo hi : Int}
  (h : Bisects body test lo hi)

include h

theorem next_of {s : Int × Int} {b : Bool} (hw : Within lo hi s) (hlt : s.1 < s.2)
    (hb : test (mid s.1 s.2) = some b) :
    body s = .next (narrow s b) := by
  rw [h.next s hw hlt, hb]
  rfl

theorem while_of (htest : ∀ k, lo ≤ k → k < hi → test k ≠ none) :
    Loop.While body (fun s => s.1 < s.2) (Within lo hi) (Round test) where
  exit := h.exit
  next := fun s hw hlt => by
    have hmid := hw.mid_lt hlt
    obtain ⟨b, hb⟩ := Option.ne_none_iff_exists'.mp (htest _ hmid.1 hmid.2)
    exact ⟨_, h.next_of hw hlt hb, hlt, b, hb, rfl⟩

theorem returns (htest : ∀ k, lo ≤ k → k < hi → test k ≠ none) (hle : lo ≤ hi) : Loop.Returns body (lo, hi) := by
  obtain ⟨n, s', hrun, -⟩ := (h.while_of htest).total (P := fun _ => True) (fun s => (s.2 - s.1).toNat)
    (fun s s' hw hr => hr.within hw) (fun _ _ _ _ _ => trivial) (fun s s' _ hr => hr.width_lt) (s := (lo, hi))
    ⟨Int.le_refl lo, hle, Int.le_refl hi⟩ trivial
  exact ⟨n, s', hrun⟩

variable {P : Int → Prop} [DecidablePred P]

theorem least (htest : ∀ k, lo ≤ k → k < hi → test k = some (decide (P k)))
    (hmono : ∀ a b, lo ≤ a → a ≤ b → P a → P b) (hle : lo ≤ hi) (hlast : P hi) {n : Nat}
    (hn : (hi - lo).toNat < n) :
    ∃ k, Loop.run body n (lo, hi) = some (k, k) ∧ IsLeast { k | lo ≤ k ∧ P k } k := by
  have hstep : ∀ s s', Within lo hi s → (P s.2 ∧ ∀ k, lo ≤ k → k < s.1 → ¬ P k) → Round test s s' →
      P s'.2 ∧ ∀ k, lo ≤ k → k < s'.1 → ¬ P k := by
    rintro s _ hw ⟨hpass, hbelow⟩ ⟨hlt, b, hb, rfl⟩
    have hmid := hw.mid_lt hlt
    obtain rfl := Option.some_inj.mp ((htest _ hmid.1 hmid.2).symm.trans hb)
    by_cases hp : P (mid s.1 s.2)
    · simpa [narrow, hp] using hbelow
    · simp only [narrow, hp, decide_false, Bool.false_eq_true, if_false]
      exact ⟨hpass, fun k hk hlt hpk => hp (hmono k _ hk (Int.lt_add_one_iff.mp hlt) hpk)⟩
  obtain ⟨⟨a, b⟩, hrun, hw, ⟨hpass, hbelow⟩, hend⟩ := (h.while_of fun k hk hk' => by simp [htest k hk hk']).total_lt
    (fun s => (s.2 - s.1).toNat) (fun s s' hw hr => hr.within hw) hstep (fun s s' _ hr => hr.width_lt)
    (s := (lo, hi))
    ⟨Int.le_refl lo, hle, Int.le_refl hi⟩ ⟨hlast, fun k hk hlt => absurd hk (Int.not_le.mpr hlt)⟩ hn
  obtain rfl : a = b := Int.le_antisymm hw.le (Int.not_lt.mp hend)
  exact ⟨a, hrun, ⟨hw.lo_le, hpass⟩, fun k ⟨hk, hpk⟩ => Int.not_lt.mp fun hlt => hbelow k hk hlt hpk⟩

theorem mono {lo' hi' : Int} (hlo : lo ≤ lo') (hhi : hi' ≤ hi) : Bisects body test lo' hi' where
  exit := h.exit
  next := fun s hw => h.next s ⟨Int.le_trans hlo hw.lo_le, hw.le, Int.le_trans hw.le_hi hhi⟩

end Bisects

/-! ## Where a search goes -/

/-- The midpoint after `i - 1` tests have failed. -/
def up (lo hi : Int) (i : Nat) : Int := hi - (hi - lo + 1) / 2 ^ i

section
variable {lo hi : Int} {n : Nat}

theorem up_zero (lo hi : Int) : up lo hi 0 + 1 = lo := by
  simp [up]
  omega

theorem up_succ (lo hi : Int) (n : Nat) : up lo hi (n + 1) = hi - (hi - lo + 1) / 2 ^ n / 2 := by
  rw [up, pow_succ, Int.ediv_ediv_of_nonneg (by positivity)]

theorem mid_up (lo hi : Int) (n : Nat) : mid (up lo hi n + 1) hi = up lo hi (n + 1) := by
  rw [up_succ, mid, up]
  omega

/-- The search goes on after `n` failures as long as two candidates are left. -/
theorem up_lt_iff (lo hi : Int) (n : Nat) : up lo hi n + 1 < hi ↔ 2 ^ (n + 1) ≤ hi - lo + 1 := by
  have hpos : (0 : Int) < 2 ^ n := by positivity
  have hle : 2 ≤ (hi - lo + 1) / 2 ^ n ↔ 2 * 2 ^ n ≤ hi - lo + 1 := Int.le_ediv_iff_mul_le hpos
  rw [pow_succ, Int.mul_comm, ← hle, up]
  omega

theorem up_mono (h : lo ≤ hi) {i j : Nat} (hij : i ≤ j) : up lo hi i ≤ up lo hi j := by
  induction j, hij using Nat.le_induction with
  | base => exact Int.le_refl _
  | succ j _ ih =>
    have hwidth : 0 ≤ (hi - lo + 1) / 2 ^ j := Int.ediv_nonneg (by omega) (by positivity)
    have hup : up lo hi j = hi - (hi - lo + 1) / 2 ^ j := rfl
    rw [up_succ]
    omega

variable {body : Int × Int → Outcome (Int × Int)} {test : Int → Option Bool} {P Safe : Int → Prop} [DecidablePred P]
  [DecidablePred Safe]

theorem up_lt_succ (hlt : up lo hi n + 1 < hi) : up lo hi n < up lo hi (n + 1) := by
  rw [← mid_up]
  exact Int.lt_of_lt_of_le (Int.lt_succ _) (le_mid hlt.le)

theorem returns_below (h : Bisects body test lo hi)
    (htest : ∀ k, lo ≤ k → k < hi → test k = if Safe k then some (decide (P k)) else none)
    (hsafe : ∀ a b, a ≤ b → Safe b → Safe a) {a b : Int} (ha : lo ≤ a) (hab : a ≤ b) (hb : b < hi) (hs : Safe b) :
    Loop.Returns body (a, b) := by
  refine (h.mono ha hb.le).returns (fun k hk hk' => ?_) hab
  rw [htest k (Int.le_trans ha hk) (Int.lt_trans hk' hb), if_pos (hsafe k b hk'.le hs)]
  exact Option.some_ne_none _

theorem returns_up (h : Bisects body test lo hi)
    (htest : ∀ k, lo ≤ k → k < hi → test k = if Safe k then some (decide (P k)) else none)
    (hsafe : ∀ a b, a ≤ b → Safe b → Safe a) (hle : lo ≤ hi) (n : Nat) (hn : up lo hi n + 1 ≤ hi)
    (hfail : ∀ j, 0 < j → j ≤ n → Safe (up lo hi j) ∧ ¬ P (up lo hi j)) :
    Loop.Returns body (up lo hi n + 1, hi) ↔
      ∀ i, 0 < i → 2 ^ i ≤ hi - lo + 1 → ¬ Safe (up lo hi i) → ∃ j, 0 < j ∧ j < i ∧ P (up lo hi j) := by
  induction hm : (hi - up lo hi n).toNat using Nat.strongRecOn generalizing n with
  | _ m ih =>
    have hlo : lo ≤ up lo hi n + 1 := by
      have hmono := up_mono hle (Nat.zero_le n)
      have hzero := up_zero lo hi
      omega
    have hw : Within lo hi (up lo hi n + 1, hi) := ⟨hlo, hn, Int.le_refl hi⟩
    by_cases hlt : up lo hi n + 1 < hi
    · have hmid := hw.mid_lt hlt
      rw [mid_up] at hmid
      have ht := htest _ hmid.1 hmid.2
      by_cases hs : Safe (up lo hi (n + 1))
      · rw [if_pos hs] at ht
        by_cases hp : P (up lo hi (n + 1))
        · have hb := h.next_of (b := true) hw hlt (by rw [mid_up, ht, decide_eq_true hp])
          rw [narrow, mid_up, if_pos rfl] at hb
          rw [Loop.returns_next hb]
          refine iff_of_true (returns_below h htest hsafe hlo (up_lt_succ hlt) hmid.2 hs) fun i _ _ hunsafe => ?_
          rcases Nat.lt_or_ge (n + 1) i with hni | hin
          · exact ⟨n + 1, Nat.succ_pos n, hni, hp⟩
          · exact absurd (hsafe _ _ (up_mono hle hin) hs) hunsafe
        · have hb := h.next_of (b := false) hw hlt (by rw [mid_up, ht, decide_eq_false hp])
          rw [narrow, mid_up, if_neg Bool.false_ne_true] at hb
          rw [Loop.returns_next hb]
          have hgrow := up_lt_succ hlt
          refine ih _ (by omega) (n + 1) hmid.2 (fun j hj hjn => ?_) rfl
          rcases Nat.lt_or_eq_of_le hjn with hjn | rfl
          · exact hfail j hj (Nat.le_of_lt_succ hjn)
          · exact ⟨hs, hp⟩
      · rw [if_neg hs] at ht
        have hb := h.next _ hw hlt
        rw [mid_up, ht] at hb
        refine iff_of_false (Loop.not_returns_fault hb) fun hall => ?_
        obtain ⟨j, hj, hjn, hp⟩ := hall (n + 1) (Nat.succ_pos n) ((up_lt_iff lo hi n).mp hlt) hs
        exact (hfail j hj (Nat.le_of_lt_succ hjn)).2 hp
    · refine iff_of_true (Loop.returns_exit (h.exit _ hlt)) fun i hi0 hi hunsafe => ?_
      rcases Nat.lt_or_ge n i with hni | hin
      · rw [up_lt_iff] at hlt
        have hpow : (2 : Int) ^ (n + 1) ≤ 2 ^ i := pow_le_pow_right₀ (by decide) hni
        omega
      · exact absurd (hfail i hi0 hin).1 hunsafe

/-- **When a search does not fault**: before the first midpoint that is not safe, one passes. -/
theorem returns_iff (h : Bisects body test lo hi)
    (htest : ∀ k, lo ≤ k → k < hi → test k = if Safe k then some (decide (P k)) else none)
    (hsafe : ∀ a b, a ≤ b → Safe b → Safe a) (hle : lo ≤ hi) :
    Loop.Returns body (lo, hi) ↔
      ∀ i, 0 < i → 2 ^ i ≤ hi - lo + 1 → ¬ Safe (up lo hi i) → ∃ j, 0 < j ∧ j < i ∧ P (up lo hi j) := by
  have hup := returns_up h htest hsafe hle 0 (by rw [up_zero]; exact hle) (fun j hj hj0 => by omega)
  rwa [up_zero] at hup

end

end Bisect
