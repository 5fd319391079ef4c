import Mathlib.Data.Int.Order.Basic
import Playground.Lib.DistinctSuffix
import Playground.Lib.Loop
import Playground.SlidingWindow

/-!
# The window is the longest suffix without repetition

The map has the last place of every character that was read. Those to the left
of the window are stale, and the left end does not move for them.
-/

namespace Playground.SlidingWindow

open DistinctSuffix
open scoped List

variable {α : Type} {l w s : List α} {c d : α}

/-! ## The last places -/

def LastAt (l : List α) (c : α) : Option Nat → Prop
  | none => c ∉ l
  | some i => ∃ p q, l = p ++ c :: q ∧ c ∉ q ∧ p.length = i

theorem lastAt_self (l : List α) (c : α) : LastAt (l ++ [c]) c (some l.length) := ⟨l, [], rfl, by simp, rfl⟩

theorem lastAt_other {o : Option Nat} (h : LastAt l d o) (hne : d ≠ c) : LastAt (l ++ [c]) d o := by
  cases o with
  | none =>
    simp [LastAt, hne]
    exact h
  | some i =>
    obtain ⟨p, q, rfl, hq, hlen⟩ := h
    exact ⟨p, q ++ [c], by simp, by simp [hq, hne], hlen⟩

theorem window_cases {p : List α} {o : Option Nat} (h : LastAt (p ++ w) c o) :
    (∃ a b, w = a ++ c :: b ∧ o = some (p.length + a.length)) ∨ c ∉ w ∧ ∀ i, o = some i → i < p.length := by
  cases o with
  | none =>
    refine .inr ⟨fun hc => h (List.mem_append_right p hc), by simp⟩
  | some i =>
    obtain ⟨a, b, heq, hb, rfl⟩ := h
    rcases List.append_eq_append_iff.mp heq with ⟨m, rfl, rfl⟩ | ⟨m, rfl, hm⟩
    · exact .inl ⟨m, b, rfl, by simp⟩
    · cases m with
      | nil =>
        simp at hm
        exact .inl ⟨[], b, by simp [hm], by simp⟩
      | cons x m =>
        simp at hm
        obtain ⟨rfl, rfl⟩ := hm
        refine .inr ⟨fun hc => hb (List.mem_append_right m hc), ?_⟩
        rintro i ⟨⟩
        simp

/-! ## The rounds -/

structure Read (l : List α) (st : Substring α) : Prop where
  last : ∀ c, LastAt l c (st.charIndex c)
  window : ∃ p w, l = p ++ w ∧ p.length = st.left ∧ Longest w l
  greatest : ∃ n, st.maxLen = (n : Nat) ∧ IsGreatest (Lengths l) n

theorem read_nil : Read ([] : List α) {} :=
  ⟨fun c => by simp [LastAt], ⟨[], [], rfl, rfl, longest_nil⟩, ⟨0, rfl, greatest_nil⟩⟩

theorem jump_eq {st : Substring α} (h : Read l st) (c : α) :
    ∃ p w, l ++ [c] = p ++ w ∧ p.length = jump st c ∧ Longest w (l ++ [c]) := by
  obtain ⟨p, w, rfl, hleft, hlongest⟩ := h.window
  have hcases := window_cases (h.last c)
  rcases hcases with ⟨a, b, rfl, hlast⟩ | ⟨hc, hstale⟩
  · have hwithin : p.length ≤ p.length + a.length := Nat.le_add_right _ _
    refine ⟨p ++ a ++ [c], b ++ [c], by simp, ?_, hlongest.jump⟩
    simp [jump, hlast, ← hleft]
    omega
  · refine ⟨p, w ++ [c], by simp, ?_, hlongest.extend hc⟩
    cases hlast : st.charIndex c with
    | none => simp [jump, hlast, hleft]
    | some i =>
      have hlt : ¬ st.left ≤ i := by
        have := hstale i hlast
        omega
      simp [jump, hlast, hlt, hleft]

variable [DecidableEq α]

theorem Read.next {st : Substring α} (h : Read l st) (hc : s[l.length]? = some c) :
    ∃ st', substringRound s st l.length = some st' ∧ Read (l ++ [c]) st' := by
  obtain ⟨p, w, heq, hleft, hlongest⟩ := jump_eq h c
  obtain ⟨n, hmax, hgreatest⟩ := h.greatest
  have hlen : l.length + 1 = p.length + w.length := by simpa using congrArg List.length heq
  have hround : substringRound s st l.length = some {
      charIndex := Function.update st.charIndex c (some l.length)
      maxLen := max st.maxLen ((l.length : Int) - jump st c + 1)
      left := jump st c } := by simp [substringRound, hc]
  refine ⟨_, hround, ?_, ⟨p, w, heq, hleft, hlongest⟩, max n w.length, ?_, hlongest.greatest hgreatest⟩
  · intro d
    by_cases hd : d = c
    · subst hd
      simpa using lastAt_self l d
    · simpa [hd] using lastAt_other (h.last d) hd
  · simp [hmax, ← hleft]
    omega

theorem read_all (s : List α) : ∃ st, (List.range s.length).foldlM (substringRound s) {} = some st ∧ Read s st := by
  have hround : ∀ i < s.length, ∀ st, Read (s.take i) st →
      ∃ st', substringRound s st i = some st' ∧ Read (s.take (i + 1)) st' := by
    intro i hi st h
    have hlen : (s.take i).length = i := List.length_take_of_le (Nat.le_of_lt hi)
    have hc : s[(s.take i).length]? = some s[i] := by rw [hlen, List.getElem?_eq_getElem hi]
    obtain ⟨st', hround, h'⟩ := h.next hc
    rw [hlen] at hround
    rw [List.take_succ_eq_append_getElem hi]
    exact ⟨st', hround, h'⟩
  obtain ⟨st, hrun, h⟩ := Loop.forRange (I := fun i st => Read (s.take i) st) hround read_nil
  rw [List.take_length] at h
  exact ⟨st, hrun, h⟩

/-- **The greatest length of a substring without repeating characters.** -/
theorem longest_substring (s : List α) (hsize : s.length < 2 ^ 31) :
    ∃ n : Nat, lengthOfLongestSubstring s = some (n : Int) ∧
      IsGreatest { n | ∃ t, t <:+: s ∧ t.Nodup ∧ t.length = n } n := by
  obtain ⟨st, hrun, h⟩ := read_all s
  obtain ⟨n, hmax, hgreatest⟩ := h.greatest
  exact ⟨n, by simp [lengthOfLongestSubstring, CInt.ofSize_of_lt hsize, hrun, hmax], hgreatest⟩

example : lengthOfLongestSubstring "pwwkew".toList = some 3 ∧
    lengthOfLongestSubstring "bbbbb".toList = some 1 := by decide

theorem longest_substring_stale : ∃ n : Nat, lengthOfLongestSubstring "abba".toList = some (n : Int) ∧
    IsGreatest { n | ∃ t, t <:+: "abba".toList ∧ t.Nodup ∧ t.length = n } n :=
  longest_substring "abba".toList (by decide)

/-- `2 ^ 31` characters are a negative `int`, so the loop is not entered. -/
theorem longest_substring_long : ¬ ∀ s : List Char, ∃ n : Nat, lengthOfLongestSubstring s = some (n : Int) ∧
    IsGreatest { n | ∃ t, t <:+: s ∧ t.Nodup ∧ t.length = n } n := by
  intro h
  obtain ⟨k, hk⟩ : ∃ k : Nat, k = 2 ^ 31 := ⟨_, rfl⟩
  obtain ⟨n, hrun, hgreatest⟩ := h (List.replicate k 'a')
  rw [lengthOfLongestSubstring, List.length_replicate,
    Int.toNat_of_nonpos (Int.le_of_lt (CInt.ofSize_neg hk))] at hrun
  have hzero : n = 0 := by simpa using hrun.symm
  have hone : 1 ≤ n := by
    apply hgreatest.2
    refine ⟨['a'], ?_, by simp, rfl⟩
    obtain ⟨m, rfl⟩ := Nat.exists_eq_add_one.mpr (by omega : 0 < k)
    exact ⟨[], List.replicate m 'a', by simp [List.replicate_succ]⟩
  omega

end Playground.SlidingWindow
