import Mathlib.Data.List.Infix
import Mathlib.Data.List.Nodup
import Mathlib.Order.Bounds.Defs

/-!
# Substrings without repetition

While a list grows at its end, its longest suffix without repetition grows by
the new element, after what lies up to the last occurrence of it is left out.
Every contiguous part is a suffix at the time its last element is read.
-/

namespace DistinctSuffix

open scoped List

variable {α : Type*} {l w w' : List α} {c : α}

/-- The longest suffix of `l` in which no element occurs twice. -/
structure Longest (w l : List α) : Prop where
  suffix : w <:+ l
  nodup : w.Nodup
  longest : ∀ t, t <:+ l → t.Nodup → t.length ≤ w.length

theorem longest_nil : Longest ([] : List α) [] := by
  constructor
  · simp
  · simp
  · simp

theorem suffix_snoc {t : List α} (h : t <:+ l ++ [c]) : t = [] ∨ ∃ t', t = t' ++ [c] ∧ t' <:+ l := by
  rcases List.eq_nil_or_concat t with rfl | ⟨t', x, rfl⟩
  · exact .inl rfl
  · obtain ⟨p, hp⟩ := h
    rw [List.concat_eq_append, ← List.append_assoc] at hp
    obtain ⟨hp, hx⟩ := List.append_inj' hp rfl
    exact .inr ⟨t', by simpa using hx, p, hp⟩

theorem Longest.extend (h : Longest w l) (hc : c ∉ w) : Longest (w ++ [c]) (l ++ [c]) := by
  obtain ⟨⟨p, rfl⟩, hnodup, hlongest⟩ := h
  refine ⟨⟨p, by simp⟩, ?_, ?_⟩
  · simp [List.nodup_append, hnodup]
    exact fun x hx heq => hc (heq ▸ hx)
  · intro t ht ht'
    rcases suffix_snoc ht with rfl | ⟨t', rfl, hsuffix⟩
    · simp
    · have := hlongest t' hsuffix (List.nodup_append.mp ht').1
      simpa using this

/-- One that is in it leaves what comes after that place. -/
theorem Longest.jump (h : Longest (w ++ c :: w') l) : Longest (w' ++ [c]) (l ++ [c]) := by
  obtain ⟨⟨p, rfl⟩, hnodup, -⟩ := h
  have hc : (c :: w').Nodup := (List.nodup_append.mp hnodup).2.1
  obtain ⟨hnot, hnodup'⟩ := List.nodup_cons.mp hc
  refine ⟨⟨p ++ w ++ [c], by simp⟩, ?_, ?_⟩
  · simp [List.nodup_append, hnodup']
    exact fun x hx heq => hnot (heq ▸ hx)
  · intro t ht ht'
    rcases suffix_snoc ht with rfl | ⟨t', rfl, hsuffix⟩
    · simp
    · have hout : c ∉ t' := fun hmem => (List.nodup_append.mp ht').2.2 c hmem c List.mem_cons_self rfl
      have hsuffix' : c :: w' <:+ p ++ (w ++ c :: w') := ⟨p ++ w, by simp⟩
      -- Otherwise `t'` would reach back to that place.
      have hlt : t'.length < (c :: w').length := by
        apply Nat.lt_of_not_le
        intro hle
        exact hout ((List.suffix_of_suffix_length_le hsuffix' hsuffix hle).subset List.mem_cons_self)
      simp at hlt ⊢
      omega

/-- The lengths of the contiguous parts without repetition. -/
def Lengths (l : List α) : Set Nat := { n | ∃ t, t <:+: l ∧ t.Nodup ∧ t.length = n }

theorem greatest_nil : IsGreatest (Lengths ([] : List α)) 0 := by
  refine ⟨⟨[], by simp⟩, ?_⟩
  rintro n ⟨t, ht, -, rfl⟩
  simp [List.infix_nil.mp ht]

theorem Longest.greatest {n : Nat} (h : Longest w (l ++ [c])) (hn : IsGreatest (Lengths l) n) :
    IsGreatest (Lengths (l ++ [c])) (max n w.length) := by
  obtain ⟨⟨t, ht, hnodup, hlen⟩, hup⟩ := hn
  constructor
  · rcases Nat.le_total n w.length with hle | hle
    · rw [Nat.max_eq_right hle]
      exact ⟨w, h.suffix.isInfix, h.nodup, rfl⟩
    · rw [Nat.max_eq_left hle]
      exact ⟨t, ht.trans (List.prefix_append l [c]).isInfix, hnodup, hlen⟩
  · rintro m ⟨u, hu, hu', rfl⟩
    rcases List.infix_concat_iff.mp hu with hu | hu
    · exact Nat.le_trans (h.longest u hu hu') (Nat.le_max_right _ _)
    · exact Nat.le_trans (hup ⟨u, hu, hu', rfl⟩) (Nat.le_max_left _ _)

end DistinctSuffix
