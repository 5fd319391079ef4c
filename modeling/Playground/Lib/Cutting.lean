import Mathlib.Algebra.Order.BigOperators.Group.List
import Mathlib.Data.Set.Finite.Lemmas
import Mathlib.Data.Set.Finite.List

/-!
# Cutting a list into parts

Contiguous parts that are not empty, each of a sum within a bound. Going
through the list and cutting only where the bound would be exceeded takes the
fewest parts; as long as there are fewer parts than elements, one more is as
good.
-/

namespace Cutting

variable {α : Type*}

structure Cut (l : List α) (parts : List (List α)) : Prop where
  flatten : parts.flatten = l
  nonempty : ∀ p ∈ parts, p ≠ []

section
variable [AddCommMonoid α] [LinearOrder α] {bound : α} {l : List α}

def Within (bound : α) (parts : List (List α)) : Prop := ∀ p ∈ parts, p.sum ≤ bound

/-- The number of cuts in what is left, with the sum of the part so far. -/
def cuts (bound : α) : α → List α → Nat
  | _, [] => 0
  | sum, x :: l => if bound < sum + x then cuts bound x l + 1 else cuts bound (sum + x) l

theorem cuts_of_lt {sum x : α} (h : bound < sum + x) : cuts bound sum (x :: l) = cuts bound x l + 1 := if_pos h

theorem cuts_of_le {sum x : α} (h : sum + x ≤ bound) : cuts bound sum (x :: l) = cuts bound (sum + x) l :=
  if_neg (not_lt.mpr h)

/-- The parts are those of the cuts. -/
theorem exists_cut {p : List α} (hp : p ≠ []) (hsum : p.sum ≤ bound) (hl : ∀ x ∈ l, x ≤ bound) :
    ∃ q parts, Cut (p ++ l) ((p ++ q) :: parts) ∧ Within bound ((p ++ q) :: parts) ∧
      parts.length = cuts bound p.sum l := by
  induction l generalizing p with
  | nil =>
    refine ⟨[], [], ⟨by simp, by simpa using hp⟩, ?_, rfl⟩
    simpa [Within] using hsum
  | cons x l ih =>
    have hx := hl x (List.mem_cons_self ..)
    have hl' := fun y hy => hl y (List.mem_cons_of_mem x hy)
    by_cases hlt : bound < p.sum + x
    · obtain ⟨q, parts, hcut, hwithin, hlen⟩ := ih (List.cons_ne_nil x []) (by simpa using hx) hl'
      refine ⟨[], (([x] ++ q) :: parts), ⟨?_, ?_⟩, ?_, ?_⟩
      · simpa using hcut.flatten
      · simpa [hp] using hcut.nonempty
      · simpa [Within, hsum] using hwithin
      · rw [cuts_of_lt hlt, List.length_cons, hlen, List.sum_singleton]
    · have hle := not_lt.mp hlt
      obtain ⟨q, parts, hcut, hwithin, hlen⟩ := ih (p := p ++ [x]) (by simp) (by simpa using hle) hl'
      refine ⟨x :: q, parts, by simpa using hcut, by simpa using hwithin, ?_⟩
      rw [cuts_of_le hle, hlen, List.sum_append, List.sum_singleton]

variable [IsOrderedAddMonoid α]

theorem cuts_mono (hl : ∀ x ∈ l, 0 ≤ x) {s t : α} (hs : 0 ≤ s) (hst : s ≤ t) :
    cuts bound s l ≤ cuts bound t l ∧ cuts bound t l ≤ cuts bound s l + 1 := by
  induction l generalizing s t with
  | nil => exact ⟨Nat.le_refl _, Nat.le_succ _⟩
  | cons x l ih =>
    have hx := hl x (List.mem_cons_self ..)
    have ih := fun {s t : α} => ih (fun y hy => hl y (List.mem_cons_of_mem x hy)) (s := s) (t := t)
    have hxs : x ≤ s + x := le_add_of_nonneg_left hs
    have hle : s + x ≤ t + x := add_le_add_left hst x
    by_cases ht : bound < t + x
    · rw [cuts_of_lt ht]
      by_cases hs' : bound < s + x
      · rw [cuts_of_lt hs']
        exact ⟨Nat.le_refl _, Nat.le_succ _⟩
      · rw [cuts_of_le (not_lt.mp hs')]
        obtain ⟨h₁, h₂⟩ := ih hx hxs
        exact ⟨h₂, Nat.succ_le_succ h₁⟩
    · have hs' : s + x ≤ bound := hle.trans (not_lt.mp ht)
      rw [cuts_of_le (not_lt.mp ht), cuts_of_le hs']
      exact ih (hx.trans hxs) hle

theorem cuts_append {p : List α} (hp : ∀ x ∈ p, 0 ≤ x) {s : α} (h : s + p.sum ≤ bound) :
    cuts bound s (p ++ l) = cuts bound (s + p.sum) l := by
  induction p generalizing s with
  | nil => simp
  | cons x p ih =>
    have hp' := fun y hy => hp y (List.mem_cons_of_mem x hy)
    rw [List.sum_cons, ← add_assoc] at h ⊢
    have hx : s + x ≤ bound := (le_add_of_nonneg_right (List.sum_nonneg hp')).trans h
    rw [List.cons_append, cuts_of_le hx]
    exact ih hp' h

theorem cuts_le {parts : List (List α)} (hl : ∀ x ∈ parts.flatten, 0 ≤ x) (hwithin : Within bound parts) :
    cuts bound 0 parts.flatten ≤ parts.length - 1 := by
  induction parts with
  | nil => simp [cuts]
  | cons p parts ih =>
    rw [List.flatten_cons] at hl ⊢
    have hp := fun x hx => hl x (List.mem_append_left _ hx)
    have hrest := fun x hx => hl x (List.mem_append_right _ hx)
    have hsum : 0 + p.sum ≤ bound := by
      rw [zero_add]
      exact hwithin p (List.mem_cons_self ..)
    rw [cuts_append hp hsum, zero_add, List.length_cons, Nat.add_sub_cancel]
    cases parts with
    | nil => simp [cuts]
    | cons q parts =>
      have hle : cuts bound p.sum (q :: parts).flatten ≤ cuts bound 0 (q :: parts).flatten + 1 :=
        (cuts_mono hrest (le_refl 0) (List.sum_nonneg hp)).2
      have ih := ih hrest fun r hr => hwithin r (List.mem_cons_of_mem p hr)
      rw [List.length_cons, Nat.add_sub_cancel] at ih
      rw [List.length_cons]
      omega

theorem Cut.succ {parts : List (List α)} (h : Cut l parts) (hl : ∀ x ∈ l, 0 ≤ x) (hwithin : Within bound parts)
    (hlt : parts.length < l.length) :
    ∃ parts', Cut l parts' ∧ Within bound parts' ∧ parts'.length = parts.length + 1 := by
  induction parts generalizing l with
  | nil =>
    obtain rfl : [] = l := h.flatten
    exact absurd hlt (Nat.lt_irrefl 0)
  | cons p parts ih =>
    obtain rfl := h.flatten
    have hne := List.forall_mem_cons.mp h.nonempty
    have hw := List.forall_mem_cons.mp hwithin
    match p, hne.1 with
    | [x], _ =>
      obtain ⟨parts', hcut, hwithin', hlen⟩ := ih ⟨rfl, hne.2⟩ (fun y hy => hl y (by simp [hy])) hw.2
        (by simpa using hlt)
      refine ⟨[x] :: parts', ⟨by simp [hcut.flatten], ?_⟩,
        List.forall_mem_cons.mpr ⟨hw.1, hwithin'⟩, by simp [hlen]⟩
      exact List.forall_mem_cons.mpr ⟨hne.1, hcut.nonempty⟩
    | x :: y :: p, _ =>
      have hp : ∀ z ∈ x :: y :: p, 0 ≤ z := fun z hz => hl z (List.mem_append_left _ hz)
      have hsum : x + (y :: p).sum ≤ bound := by simpa using hw.1
      have hx : x ≤ bound :=
        (le_add_of_nonneg_right (List.sum_nonneg fun z hz => hp z (List.mem_cons_of_mem x hz))).trans hsum
      have hrest : (y :: p).sum ≤ bound := (le_add_of_nonneg_left (hp x (List.mem_cons_self ..))).trans hsum
      refine ⟨[x] :: (y :: p) :: parts, ⟨by simp, ?_⟩, ?_, rfl⟩
      · simpa using hne.2
      · refine List.forall_mem_cons.mpr ⟨by simpa using hx, List.forall_mem_cons.mpr ⟨hrest, hw.2⟩⟩

theorem Cut.refine {parts : List (List α)} (h : Cut l parts) (hl : ∀ x ∈ l, 0 ≤ x) (hwithin : Within bound parts)
    {m : Nat} (hm : parts.length ≤ m) (hml : m ≤ l.length) :
    ∃ parts', Cut l parts' ∧ Within bound parts' ∧ parts'.length = m := by
  induction m, hm using Nat.le_induction with
  | base => exact ⟨parts, h, hwithin, rfl⟩
  | succ m _ ih =>
    obtain ⟨parts', hcut, hwithin', rfl⟩ := ih (Nat.le_of_succ_le hml)
    exact hcut.succ hl hwithin' hml

theorem cuts_lt_iff (hl : ∀ x ∈ l, 0 ≤ x) (hbound : ∀ x ∈ l, x ≤ bound) {m : Nat} (hm : 0 < m)
    (hml : m ≤ l.length) :
    cuts bound 0 l < m ↔ ∃ parts, Cut l parts ∧ Within bound parts ∧ parts.length = m := by
  constructor
  · intro hlt
    obtain ⟨x, l, rfl⟩ := List.exists_cons_of_length_pos (Nat.lt_of_lt_of_le hm hml)
    have hx := hbound x (List.mem_cons_self ..)
    obtain ⟨q, parts, hcut, hwithin, hlen⟩ := exists_cut (List.cons_ne_nil x []) (by simpa using hx) fun y hy =>
      hbound y (List.mem_cons_of_mem x hy)
    have hfew : (([x] ++ q) :: parts).length ≤ m := by
      rw [cuts_of_le (by simpa using hx), zero_add] at hlt
      rw [List.sum_singleton] at hlen
      rw [List.length_cons, hlen]
      exact hlt
    exact hcut.refine hl hwithin hfew hml
  · rintro ⟨parts, hcut, hwithin, rfl⟩
    obtain rfl := hcut.flatten
    have hle := cuts_le hl hwithin
    omega

theorem le_of_within {parts : List (List α)} (h : Cut l parts) (hl : ∀ x ∈ l, 0 ≤ x) (hwithin : Within bound parts)
    {x : α} (hx : x ∈ l) : x ≤ bound := by
  obtain rfl := h.flatten
  obtain ⟨p, hp, hxp⟩ := List.mem_flatten.mp hx
  have hnonneg : ∀ y ∈ p, 0 ≤ y := fun y hy => hl y (List.mem_flatten_of_mem hp hy)
  exact (List.single_le_sum hnonneg x hxp).trans (hwithin p hp)

def Largest (parts : List (List α)) (v : α) : Prop := IsGreatest { s | ∃ p ∈ parts, p.sum = s } v

omit [IsOrderedAddMonoid α] in
theorem exists_largest {parts : List (List α)} (h : parts ≠ []) : ∃ v, Largest parts v := by
  obtain ⟨p, hp, hmax⟩ := Set.exists_max_image { p | p ∈ parts } List.sum parts.finite_toSet
    (List.exists_mem_of_ne_nil parts h)
  refine ⟨p.sum, ⟨p, hp, rfl⟩, ?_⟩
  rintro _ ⟨q, hq, rfl⟩
  exact hmax q hq

/-- **The least bound that allows `m` parts** is the least sum of the largest of `m` parts. -/
theorem isLeast_largest (hl : ∀ x ∈ l, 0 ≤ x) {m : Nat} (hm : 0 < m) (hml : m ≤ l.length) {k : α}
    (h : IsLeast { b | (∀ x ∈ l, x ≤ b) ∧ cuts b 0 l < m } k) :
    IsLeast { v | ∃ parts, Cut l parts ∧ parts.length = m ∧ Largest parts v } k := by
  have hlower : ∀ parts v, Cut l parts → parts.length = m → Largest parts v → k ≤ v := by
    intro parts v hcut hlen hv
    have hwithin : Within v parts := fun p hp => hv.2 ⟨p, hp, rfl⟩
    have hbound := fun x => le_of_within hcut hl hwithin (x := x)
    exact h.2 ⟨hbound, (cuts_lt_iff hl hbound hm hml).mpr ⟨parts, hcut, hwithin, hlen⟩⟩
  refine ⟨?_, fun v ⟨parts, hcut, hlen, hv⟩ => hlower parts v hcut hlen hv⟩
  obtain ⟨parts, hcut, hwithin, hlen⟩ := (cuts_lt_iff hl h.1.1 hm hml).mp h.1.2
  obtain ⟨v, hv⟩ := exists_largest (List.ne_nil_of_length_pos (hlen ▸ hm))
  obtain ⟨p, hp, hsum⟩ := hv.1
  obtain rfl := (hsum ▸ hwithin p hp : v ≤ k).antisymm (hlower parts v hcut hlen hv)
  exact ⟨parts, hcut, hlen, hv⟩

end

end Cutting
