import Playground.KmpStringMatching
import Playground.Lib.Border

/-!
# Knuth-Morris-Pratt finds what is there

Both loops scan a text for the pattern: `build_prefix_table` scans the pattern
itself from its second character on. The prefix they hold ends at their index,
and no longer one that ends there goes on like the text. A fallback keeps this,
since the prefixes that end there and are shorter are borders of the one held.
-/

namespace Playground.KmpStringMatching

open Border
open Loop (Outcome)

variable {α : Type} [DecidableEq α] {text pattern : List α}

/-! ## The prefix table -/

/-- `lps` up to index `i` is the table of longest borders. -/
def IsTable (pattern : List α) (lps : List Nat) (i : Nat) : Prop :=
  ∀ k < i, ∃ b, lps[k]? = some b ∧ LongestBorder pattern (k + 1) b

structure TableInv (pattern : List α) (s : Table) : Prop where
  length : s.lps.length = pattern.length
  pos : 0 < s.i
  le : s.i ≤ pattern.length
  table : IsTable pattern s.lps s.i
  scanned : Scanned pattern pattern.tail (s.i - 1) s.len

omit [DecidableEq α] in
theorem IsTable.set {lps : List Nat} {i b : Nat} (h : IsTable pattern lps i) (hi : i < lps.length)
    (hb : LongestBorder pattern (i + 1) b) : IsTable pattern (lps.set i b) (i + 1) := by
  intro k hk
  by_cases he : k = i
  · subst he
    exact ⟨b, by rw [List.getElem?_set_self hi], hb⟩
  · rw [List.getElem?_set_ne (Ne.symm he)]
    exact h k (by omega)

omit [DecidableEq α] in
theorem TableInv.len_lt {s : Table} (h : TableInv pattern s) (hi : s.i < pattern.length) : s.len < s.i := by
  have hpos := h.pos
  have hle := ((endsAt_tail (by omega)).mp h.scanned.ends).1
  omega

section
variable {s : Table} {c d : α} (hc : pattern[s.i]? = some c) (hd : pattern[s.len]? = some d)
include hc hd

theorem tableRound_match (he : c = d) (hi : s.i < s.lps.length) :
    tableRound pattern s = some { lps := s.lps.set s.i (s.len + 1), len := s.len + 1, i := s.i + 1 } := by
  simp [tableRound, hc, hd, he, Vec.write_of hi]

theorem tableRound_fallBack {b : Nat} (hne : c ≠ d) (hlen : s.len ≠ 0) (hb : s.lps[s.len - 1]? = some b) :
    tableRound pattern s = some { s with len := b } := by
  simp [tableRound, hc, hd, hne, hlen, hb]

theorem tableRound_skip (hne : c ≠ d) (hlen : s.len = 0) (hi : s.i < s.lps.length) :
    tableRound pattern s = some { s with lps := s.lps.set s.i 0, i := s.i + 1 } := by
  rw [hlen] at hd
  simp [tableRound, hc, hd, hne, hlen, Vec.write_of hi]

end

theorem tableRound_spec (s : Table) (h : TableInv pattern s) (hi : (s.i : Int) < pattern.length) :
    ∃ s', tableRound pattern s = some s' ∧ TableInv pattern s' ∧
      2 * (pattern.length - s'.i) + s'.len < 2 * (pattern.length - s.i) + s.len := by
  have hi : s.i < pattern.length := by omega
  have hlen := h.len_lt hi
  have hpos := h.pos
  have hsub : s.i - 1 + 1 = s.i := by omega
  have hilps : s.i < s.lps.length := by
    rw [h.length]
    exact hi
  have hc : pattern[s.i]? = some pattern[s.i] := List.getElem?_eq_getElem hi
  have hd : pattern[s.len]? = some pattern[s.len] := List.getElem?_eq_getElem (hlen.trans hi)
  have ht : pattern.tail[s.i - 1]? = some pattern[s.i] := by rw [List.getElem?_tail, hsub, hc]
  by_cases heq : pattern[s.i] = pattern[s.len]
  · have hlong : Longest pattern pattern.tail s.i (s.len + 1) := hsub ▸ h.scanned.advance (heq ▸ hd) ht
    refine ⟨_, tableRound_match hc hd heq hilps, ?_, ?_⟩
    · exact ⟨by rw [List.length_set, h.length], Nat.succ_pos _, hi, h.table.set hilps (hlong.border hi),
        hlong.scanned⟩
    · show 2 * (pattern.length - (s.i + 1)) + (s.len + 1) < _
      omega
  · by_cases hzero : s.len = 0
    · have hskip : Scanned pattern pattern.tail (s.i - 1) 0 := hzero ▸ h.scanned
      have hp : pattern[0]? ≠ some pattern[s.i] := by
        rw [← hzero, hd]
        exact fun he => heq (Option.some.inj he).symm
      have hlong : Longest pattern pattern.tail s.i 0 := hsub ▸ hskip.skip hp ht
      refine ⟨_, tableRound_skip hc hd heq hzero hilps, ?_, ?_⟩
      · refine ⟨by rw [List.length_set, h.length], Nat.succ_pos _, hi, h.table.set hilps (hlong.border hi), ?_⟩
        show Scanned pattern pattern.tail s.i s.len
        rw [hzero]
        exact hlong.scanned
      · show 2 * (pattern.length - (s.i + 1)) + s.len < _
        omega
    · obtain ⟨b, hb, hborder⟩ := h.table (s.len - 1) (by omega)
      rw [Nat.sub_add_cancel (Nat.pos_of_ne_zero hzero)] at hborder
      have hmis : ∀ x, pattern.tail[s.i - 1]? = some x → pattern[s.len]? ≠ some x := by
        intro x hx he
        rw [ht] at hx
        rw [hd] at he
        exact heq ((Option.some.inj hx).trans (Option.some.inj he).symm)
      have hlt := hborder.lt
      refine ⟨_, tableRound_fallBack hc hd heq hzero hb, ?_, ?_⟩
      · exact ⟨h.length, hpos, h.le, h.table, h.scanned.fallBack hborder hmis⟩
      · show 2 * (pattern.length - s.i) + b < _
        omega

theorem buildPrefixTable_spec (pattern : List α) (h : pattern.length < 2 ^ 31) :
    ∃ lps, buildPrefixTable pattern = some lps ∧ lps.length = pattern.length ∧
      IsTable pattern lps pattern.length := by
  simp only [buildPrefixTable, CInt.ofSize_of_lt h, Vec.create_natCast, Option.bind_eq_bind, Option.bind_some]
  by_cases hnil : pattern = []
  · subst hnil
    exact ⟨[], rfl, rfl, fun k hk => by cases hk⟩
  · have hpos : 0 < pattern.length := List.length_pos_of_ne_nil hnil
    have hstart : TableInv pattern { lps := List.replicate pattern.length 0 } := by
      refine ⟨List.length_replicate, Nat.zero_lt_one, hpos, fun k hk => ⟨0, ?_, ?_⟩, ?_⟩
      · obtain rfl := Nat.lt_one_iff.mp hk
        rw [List.getElem?_replicate, if_pos hpos]
      · obtain rfl := Nat.lt_one_iff.mp hk
        exact longestBorder_one pattern
      · refine Longest.scanned ⟨endsAt_zero _ _ _, fun k hk => ?_⟩
        have hlen := hk.2.length_le
        rw [List.length_take, Nat.min_eq_left hk.1] at hlen
        exact hlen
    obtain ⟨s, hrun, hs, hend⟩ := Loop.run_while (fun s => 2 * (pattern.length - s.i) + s.len)
      (fun s hi hc => tableRound_spec s hi hc) (n := 2 * pattern.length + 1) hstart
      (show 2 * (pattern.length - 1) + 0 < 2 * pattern.length + 1 by omega)
    have hle := hs.le
    have heq : s.i = pattern.length := by omega
    refine ⟨s.lps, ?_, hs.length, heq ▸ hs.table⟩
    unfold tableBody
    rw [hrun]
    rfl

theorem buildPrefixTable_none (h : pattern.length = 2 ^ 31) : buildPrefixTable pattern = none := by
  have hlt : CInt.ofSize pattern.length < 0 := CInt.ofSize_neg h
  rw [buildPrefixTable, Vec.create_of_neg hlt]
  rfl

/-- At each index the table has the length of the longest proper prefix that is also a suffix. -/
theorem buildPrefixTable_greatest (pattern : List α) (h : pattern.length < 2 ^ 31) :
    ∃ lps, buildPrefixTable pattern = some lps ∧ lps.length = pattern.length ∧ ∀ i < pattern.length,
      ∃ b, lps[i]? = some b ∧ IsGreatest {k | k ≤ i ∧ pattern.take k <:+ pattern.take (i + 1)} b := by
  obtain ⟨lps, hrun, hlen, htable⟩ := buildPrefixTable_spec pattern h
  refine ⟨lps, hrun, hlen, fun i hi => ?_⟩
  obtain ⟨b, hb, hborder⟩ := htable i hi
  exact ⟨b, hb, hborder.isGreatest⟩

theorem buildPrefixTable_greatest_main :
    buildPrefixTable "AABAACAABAA".toList = some [0, 1, 0, 1, 2, 0, 1, 2, 3, 4, 5] ∧
    ∀ i < 11, ∃ b, [0, 1, 0, 1, 2, 0, 1, 2, 3, 4, 5][i]? = some b ∧
      IsGreatest {k | k ≤ i ∧ "AABAACAABAA".toList.take k <:+ "AABAACAABAA".toList.take (i + 1)} b := by
  have hrun : buildPrefixTable "AABAACAABAA".toList = some [0, 1, 0, 1, 2, 0, 1, 2, 3, 4, 5] := by decide
  obtain ⟨lps, hlps, -, htable⟩ := buildPrefixTable_greatest "AABAACAABAA".toList (by decide)
  obtain rfl := Option.some.inj (hrun.symm.trans hlps)
  exact ⟨hrun, htable⟩

/-- The table of `2 ^ 31` characters would have a negative size. -/
theorem buildPrefixTable_long : ¬ ∀ pattern : List UInt8, ∃ lps, buildPrefixTable pattern = some lps := by
  intro h
  obtain ⟨lps, hrun⟩ := h (List.replicate (2 ^ 31) 0)
  rw [buildPrefixTable_none List.length_replicate] at hrun
  cases hrun

/-! ## Search -/

omit [DecidableEq α] in
theorem prefix_drop_iff {p : Nat} (h : p + pattern.length ≤ text.length) :
    pattern <+: text.drop p ↔ EndsAt pattern text (p + pattern.length) pattern.length := by
  have hlen : pattern.length = ((text.drop p).take pattern.length).length := by
    rw [List.length_take, List.length_drop]
    omega
  unfold EndsAt
  rw [List.take_length, List.take_add, List.prefix_iff_eq_take]
  constructor
  · intro he
    refine ⟨Nat.le_refl _, ?_⟩
    rw [← he]
    exact List.suffix_append _ _
  · intro ⟨_, hs⟩
    have hs' := List.suffix_of_suffix_length_le hs (List.suffix_append _ _) hlen.le
    exact hs'.eq_of_length hlen

/-- All occurrences that end by index `i`, in order. -/
structure Found (text pattern : List α) (i : Nat) (found : List Nat) : Prop where
  sorted : found.Pairwise (· < ·)
  mem : ∀ p, p ∈ found ↔ p + pattern.length ≤ i ∧ pattern <+: text.drop p

omit [DecidableEq α] in
theorem Found.skip {i : Nat} {found : List Nat} (h : Found text pattern i found) (hi : i < text.length)
    (hn : ¬ EndsAt pattern text (i + 1) pattern.length) : Found text pattern (i + 1) found := by
  refine ⟨h.sorted, fun p => (h.mem p).trans ⟨fun ⟨hle, hp⟩ => ⟨by omega, hp⟩, fun ⟨hle, hp⟩ => ⟨?_, hp⟩⟩⟩
  by_contra hgt
  have heq : p + pattern.length = i + 1 := by omega
  have hends := (prefix_drop_iff (by omega)).mp hp
  rw [heq] at hends
  exact hn hends

omit [DecidableEq α] in
theorem Found.add {i : Nat} {found : List Nat} (h : Found text pattern i found) (hi : i < text.length)
    (hends : EndsAt pattern text (i + 1) pattern.length) :
    Found text pattern (i + 1) (found ++ [i + 1 - pattern.length]) := by
  have hle : pattern.length ≤ i + 1 := by
    have hlen := hends.2.length_le
    rw [List.take_length, List.length_take] at hlen
    omega
  refine ⟨List.pairwise_append.mpr ⟨h.sorted, List.pairwise_singleton _ _, fun p hp q hq => ?_⟩, fun p => ?_⟩
  · have hp := ((h.mem p).mp hp).1
    have hq := List.mem_singleton.mp hq
    omega
  · rw [List.mem_append, h.mem, List.mem_singleton]
    constructor
    · rintro (⟨hle, hp⟩ | rfl)
      · exact ⟨by omega, hp⟩
      · refine ⟨by omega, (prefix_drop_iff (by omega)).mpr ?_⟩
        rw [Nat.sub_add_cancel hle]
        exact hends
    · intro ⟨hle, hp⟩
      by_cases heq : p + pattern.length = i + 1
      · exact Or.inr (by omega)
      · exact Or.inl ⟨by omega, hp⟩

structure SearchInv (text pattern : List α) (s : Search) : Prop where
  le : s.i ≤ text.length
  lt : s.j < pattern.length
  scanned : Scanned pattern text s.i s.j
  found : Found text pattern s.i s.found

section
variable {lps : List Nat} {n m : Int} {s : Search} {c d : α} {b : Nat}

theorem searchMatch_eq (hc : text[s.i]? = some c) (hd : pattern[s.j]? = some d) : searchMatch text pattern s =
    some (if c = d then { s with i := s.i + 1, j := s.j + 1 } else s) := by
  simp [searchMatch, hc, hd]

theorem searchNext_full (hj : (s.j : Int) = m) (hpos : 0 < s.j) (hb : lps[s.j - 1]? = some b) :
    searchNext text pattern lps n m s = some { s with found := s.found ++ [s.i - s.j], j := b } := by
  have hsub : (s.j : Int) - 1 = (s.j - 1 : Nat) := by omega
  simp [searchNext, ← hj, hsub, hb]

theorem searchNext_end (hj : (s.j : Int) ≠ m) (hi : ¬ (s.i : Int) < n) :
    searchNext text pattern lps n m s = some s := by
  simp [searchNext, hj, hi]

section
variable (hj : (s.j : Int) ≠ m) (hi : (s.i : Int) < n) (hc : text[s.i]? = some c) (hd : pattern[s.j]? = some d)
include hj hi hc hd

theorem searchNext_stay (he : c = d) : searchNext text pattern lps n m s = some s := by
  simp [searchNext, hj, hi, hc, hd, he]

theorem searchNext_fallBack (hne : c ≠ d) (hzero : s.j ≠ 0) (hb : lps[s.j - 1]? = some b) :
    searchNext text pattern lps n m s = some { s with j := b } := by
  simp [searchNext, hj, hi, hc, hd, hne, hzero, hb]

theorem searchNext_skip (hne : c ≠ d) (hzero : s.j = 0) :
    searchNext text pattern lps n m s = some { s with i := s.i + 1 } := by
  rw [hzero] at hj hd
  have hm : (0 : Int) ≠ m := hj
  simp [searchNext, hm, hi, hc, hd, hne, hzero]

end

end

theorem searchNext_spec {lps : List Nat} (hlps : IsTable pattern lps pattern.length) (s : Search)
    (h : SearchInv text pattern s) : ∃ s', searchNext text pattern lps text.length pattern.length s = some s' ∧
      SearchInv text pattern s' ∧ 2 * (text.length - s'.i) + s'.j ≤ 2 * (text.length - s.i) + s.j ∧
      (s.i < text.length → text[s.i]? ≠ pattern[s.j]? →
        2 * (text.length - s'.i) + s'.j < 2 * (text.length - s.i) + s.j) := by
  have hlt := h.lt
  have hj : (s.j : Int) ≠ pattern.length := by omega
  by_cases hi : s.i < text.length
  · have hi' : (s.i : Int) < text.length := by omega
    have hc : text[s.i]? = some text[s.i] := List.getElem?_eq_getElem hi
    have hd : pattern[s.j]? = some pattern[s.j] := List.getElem?_eq_getElem hlt
    by_cases heq : text[s.i] = pattern[s.j]
    · refine ⟨s, searchNext_stay hj hi' hc hd heq, h, Nat.le_refl _, fun _ hne => ?_⟩
      rw [hc, hd, heq] at hne
      exact absurd rfl hne
    · have hmis : ∀ x, text[s.i]? = some x → pattern[s.j]? ≠ some x := by
        intro x hx he
        rw [hc] at hx
        rw [hd] at he
        exact heq ((Option.some.inj hx).trans (Option.some.inj he).symm)
      by_cases hzero : s.j = 0
      · have hskip : Scanned pattern text s.i 0 := hzero ▸ h.scanned
        have hlong := hskip.skip (hzero ▸ hmis _ hc) hc
        have hnot : ¬ EndsAt pattern text (s.i + 1) pattern.length := by
          intro he
          have hle := hlong.longest _ he
          omega
        refine ⟨_, searchNext_skip hj hi' hc hd heq hzero, ⟨hi, hlt, ?_, h.found.skip hi hnot⟩, ?_, fun _ _ => ?_⟩
        · show Scanned pattern text (s.i + 1) s.j
          rw [hzero]
          exact hlong.scanned
        · show 2 * (text.length - (s.i + 1)) + s.j ≤ _
          omega
        · show 2 * (text.length - (s.i + 1)) + s.j < _
          omega
      · obtain ⟨b, hb, hborder⟩ := hlps (s.j - 1) (by omega)
        rw [Nat.sub_add_cancel (Nat.pos_of_ne_zero hzero)] at hborder
        have hblt := hborder.lt
        refine ⟨_, searchNext_fallBack hj hi' hc hd heq hzero hb,
          ⟨h.le, hblt.trans hlt, h.scanned.fallBack hborder hmis, h.found⟩, ?_, fun _ _ => ?_⟩
        · exact Nat.add_le_add_left hblt.le _
        · exact Nat.add_lt_add_left hblt _
  · have hi' : ¬ (s.i : Int) < text.length := by omega
    exact ⟨s, searchNext_end hj hi', h, Nat.le_refl _, fun hlt => absurd hlt hi⟩

theorem searchRound_spec {lps : List Nat} (hlps : IsTable pattern lps pattern.length) (s : Search)
    (h : SearchInv text pattern s) (hi : (s.i : Int) < text.length) :
    ∃ s', (searchMatch text pattern s).bind (searchNext text pattern lps text.length pattern.length) = some s' ∧
      SearchInv text pattern s' ∧ 2 * (text.length - s'.i) + s'.j < 2 * (text.length - s.i) + s.j := by
  have hi : s.i < text.length := by omega
  have hlt := h.lt
  have hc : text[s.i]? = some text[s.i] := List.getElem?_eq_getElem hi
  have hd : pattern[s.j]? = some pattern[s.j] := List.getElem?_eq_getElem hlt
  rw [searchMatch_eq hc hd, Option.bind_some]
  by_cases heq : text[s.i] = pattern[s.j]
  · rw [if_pos heq]
    have hlong := h.scanned.advance hd (heq ▸ hc)
    by_cases hfull : s.j + 1 = pattern.length
    · have hends : EndsAt pattern text (s.i + 1) pattern.length := hfull ▸ hlong.ends
      obtain ⟨b, hb, hborder⟩ := hlps s.j hlt
      have hblt := hborder.lt
      have hmis : ∀ x, text[s.i + 1]? = some x → pattern[s.j + 1]? ≠ some x := by
        intro x _ he
        rw [hfull, List.getElem?_length] at he
        cases he
      refine ⟨_, searchNext_full (b := b) (by rw [hfull]) (Nat.succ_pos _) hb,
        ⟨hi, Nat.lt_of_lt_of_le hblt hfull.le, hlong.scanned.fallBack hborder hmis, ?_⟩, ?_⟩
      · show Found text pattern (s.i + 1) (s.found ++ [s.i + 1 - (s.j + 1)])
        rw [hfull]
        exact h.found.add hi hends
      · show 2 * (text.length - (s.i + 1)) + b < _
        omega
    · have hnot : ¬ EndsAt pattern text (s.i + 1) pattern.length := by
        intro he
        have hle := hlong.longest _ he
        omega
      have hinv : SearchInv text pattern { s with i := s.i + 1, j := s.j + 1 } :=
        ⟨hi, by show s.j + 1 < _; omega, hlong.scanned, h.found.skip hi hnot⟩
      obtain ⟨s', hs, hs', hle, _⟩ := searchNext_spec hlps _ hinv
      refine ⟨s', hs, hs', Nat.lt_of_le_of_lt hle ?_⟩
      show 2 * (text.length - (s.i + 1)) + (s.j + 1) < _
      omega
  · rw [if_neg heq]
    obtain ⟨s', hs, hs', _, hdec⟩ := searchNext_spec hlps s h
    refine ⟨s', hs, hs', hdec hi fun he => ?_⟩
    rw [hc, hd] at he
    exact heq (Option.some.inj he)

/-- **Every occurrence is found**, and nothing else, in order. -/
theorem kmpSearch_spec (text pattern : List α) (ht : text.length < 2 ^ 31) (hp : pattern.length < 2 ^ 31) :
    ∃ found, kmpSearch text pattern = some found ∧ found.Pairwise (· < ·) ∧ (pattern = [] → found = []) ∧
      (pattern ≠ [] → ∀ p, p ∈ found ↔ pattern <+: text.drop p) := by
  simp only [kmpSearch, CInt.ofSize_of_lt ht, CInt.ofSize_of_lt hp]
  by_cases hnil : pattern = []
  · subst hnil
    exact ⟨[], rfl, .nil, fun _ => rfl, fun hne => absurd rfl hne⟩
  have hpos : 0 < pattern.length := List.length_pos_of_ne_nil hnil
  have hzero : ¬ (pattern.length : Int) = 0 := by omega
  rw [if_neg hzero]
  by_cases hlong : pattern.length > text.length
  · refine ⟨[], if_pos (by omega), .nil, fun he => absurd he hnil, fun _ p => ?_⟩
    refine iff_of_false List.not_mem_nil fun hpre => ?_
    have hlen := hpre.length_le
    rw [List.length_drop] at hlen
    omega
  · obtain ⟨lps, htable, -, hlps⟩ := buildPrefixTable_spec pattern hp
    have hstart : SearchInv text pattern {} := by
      refine ⟨Nat.zero_le _, hpos, Longest.scanned ⟨endsAt_zero _ _ _, fun k hk => ?_⟩, .nil, fun p => ?_⟩
      · have hlen := hk.2.length_le
        rw [List.length_take, Nat.min_eq_left hk.1] at hlen
        exact hlen
      · refine iff_of_false List.not_mem_nil fun hle => ?_
        have hle : p + pattern.length ≤ 0 := hle.1
        omega
    obtain ⟨s, hrun, hs, hend⟩ := Loop.run_while (fun s => 2 * (text.length - s.i) + s.j)
      (fun s hi hc => searchRound_spec hlps s hi hc) (n := 2 * text.length + 1) hstart
      (Nat.lt_succ_self _)
    have hle := hs.le
    have heq : s.i = text.length := by omega
    refine ⟨s.found, ?_, hs.found.sorted, fun he => absurd he hnil, fun _ p => ?_⟩
    · unfold searchBody
      rw [if_neg (by omega), htable, Option.bind_eq_bind, Option.bind_some, Option.bind_eq_bind, hrun]
      rfl
    · rw [hs.found.mem, heq]
      refine ⟨fun h => h.2, fun h => ⟨?_, h⟩⟩
      have hlen := h.length_le
      rw [List.length_drop] at hlen
      omega

example : kmpSearch "AABAACAADAABAABA".toList "AABA".toList = some [0, 9, 12] := by decide

theorem kmpSearch_spec_overlapping : kmpSearch "AAAA".toList "AA".toList = some [0, 1, 2] ∧
    ∀ p, p ∈ [0, 1, 2] ↔ "AA".toList <+: "AAAA".toList.drop p := by
  have hrun : kmpSearch "AAAA".toList "AA".toList = some [0, 1, 2] := by decide
  obtain ⟨found, hfound, -, -, hmem⟩ := kmpSearch_spec "AAAA".toList "AA".toList (by decide) (by decide)
  rw [hrun] at hfound
  cases hfound
  exact ⟨hrun, hmem (by decide)⟩

theorem kmpSearch_wraps {k : Nat} (hk : k = 2 ^ 31) (x : UInt8) : kmpSearch (List.replicate k x) [x] = some [] := by
  have hlen : CInt.ofSize (List.replicate k x).length = -2 ^ 31 := by
    rw [List.length_replicate, CInt.ofSize_of_le (by omega) (by omega)]
    omega
  have hone : CInt.ofSize [x].length = 1 := CInt.ofSize_of_lt (by rw [List.length_singleton]; omega)
  rw [kmpSearch, hlen, hone]
  rfl

/-- A text of `2 ^ 31` characters: its length is negative as an `int`, and nothing is searched. -/
theorem kmpSearch_long : ¬ ∀ text pattern : List UInt8, pattern ≠ [] →
    ∃ found, kmpSearch text pattern = some found ∧ ∀ p, p ∈ found ↔ pattern <+: text.drop p := by
  intro h
  obtain ⟨found, hrun, hfound⟩ := h (List.replicate (2 ^ 31) 0) [0] (List.cons_ne_nil _ _)
  rw [kmpSearch_wraps rfl] at hrun
  cases hrun
  have hpre : ∀ k, 0 < k → [(0 : UInt8)] <+: List.replicate k 0 := fun k hk =>
    List.prefix_replicate_iff.mpr ⟨hk, rfl⟩
  have hmem := (hfound 0).mpr (hpre (2 ^ 31) (Nat.two_pow_pos 31))
  cases hmem

/-! ## Periods -/

omit [DecidableEq α] in
theorem repeats_iff {s : List α} {p : Nat} (hs : s ≠ []) (hp : p ∣ s.length) :
    s = (List.replicate (s.length / p) (s.take p)).flatten ↔ s.HasPeriod p := by
  have hpos : 0 < s.length := List.length_pos_of_ne_nil hs
  exact eq_replicate_iff (Nat.mul_div_cancel' hp).symm
    (Nat.div_pos (Nat.le_of_dvd hpos hp) (Nat.pos_of_dvd_of_pos hp hpos))

/-- **The shortest period** is the least length of a prefix of which the word is the repetition. -/
theorem shortestPeriod_spec (s : List α) (hs : s ≠ []) (h : s.length < 2 ^ 31) :
    ∃ p : Nat, shortestPeriod s = some (p : Int) ∧
      IsLeast {p | 1 ≤ p ∧ p ∣ s.length ∧ s = (List.replicate (s.length / p) (s.take p)).flatten} p := by
  have hpos : 0 < s.length := List.length_pos_of_ne_nil hs
  obtain ⟨lps, htable, -, hlps⟩ := buildPrefixTable_spec s h
  obtain ⟨b, hb, hborder⟩ := hlps (s.length - 1) (by omega)
  rw [Nat.sub_add_cancel hpos] at hborder
  have hlt := hborder.lt
  have hlast : Vec.at? lps ((s.length : Int) - 1) = some b := by
    have hsub : (s.length : Int) - 1 = (s.length - 1 : Nat) := by omega
    rw [hsub, Vec.at?_natCast, hb]
  have hperiod : ¬ ((s.length : Int) - b) = 0 := by omega
  have hcast : (s.length : Int) - b = ((s.length - b : Nat) : Int) := by omega
  have hrun : shortestPeriod s =
      if s.length % (s.length - b) = 0 then some ((s.length - b : Nat) : Int) else some (s.length : Int) := by
    simp only [shortestPeriod, CInt.ofSize_of_lt h, htable, hlast, Option.bind_eq_bind, Option.bind_some,
      if_neg hperiod]
    simp only [hcast, ← Int.ofNat_tmod, Int.natCast_eq_zero]
  by_cases hdvd : s.length - b ∣ s.length
  · refine ⟨s.length - b, ?_, ⟨by omega, hdvd, (repeats_iff hs hdvd).mpr hborder.hasPeriod⟩, ?_⟩
    · rw [hrun, if_pos (Nat.mod_eq_zero_of_dvd hdvd)]
    · intro q ⟨hq, hqd, hrep⟩
      exact hborder.least hq ((repeats_iff hs hqd).mp hrep)
  · refine ⟨s.length, ?_, ⟨hpos, dvd_rfl, (repeats_iff hs dvd_rfl).mpr ?_⟩, ?_⟩
    · rw [hrun, if_neg fun hz => hdvd (Nat.dvd_of_mod_eq_zero hz)]
    · exact List.hasPeriod_of_length_le s _ (Nat.le_refl _)
    · intro q ⟨hq, hqd, hrep⟩
      by_contra hlt
      have hdq := hborder.dvd ((repeats_iff hs hqd).mp hrep) hqd (by omega)
      exact hdvd (hdq.trans hqd)

theorem shortestPeriod_spec_abab : shortestPeriod "abab".toList = some 2 ∧
    IsLeast {p | 1 ≤ p ∧ p ∣ 4 ∧ "abab".toList = (List.replicate (4 / p) ("abab".toList.take p)).flatten} 2 := by
  have hrun : shortestPeriod "abab".toList = some 2 := by decide
  obtain ⟨p, hp, hleast⟩ := shortestPeriod_spec "abab".toList (by decide) (by decide)
  rw [hrun, Option.some.injEq] at hp
  obtain rfl : p = 2 := by omega
  exact ⟨hrun, hleast⟩

theorem shortestPeriod_long : ¬ ∀ s : List UInt8, s ≠ [] → ∃ p : Nat, shortestPeriod s = some (p : Int) ∧
    IsLeast {p | 1 ≤ p ∧ p ∣ s.length ∧ s = (List.replicate (s.length / p) (s.take p)).flatten} p := by
  intro h
  have hne : List.replicate (2 ^ 31) (0 : UInt8) ≠ [] := by
    intro he
    have hzero := congrArg List.length he
    rw [List.length_replicate, List.length_nil] at hzero
    omega
  obtain ⟨p, hrun, -⟩ := h _ hne
  rw [shortestPeriod, buildPrefixTable_none List.length_replicate] at hrun
  cases hrun

end Playground.KmpStringMatching
