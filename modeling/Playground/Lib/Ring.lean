import Mathlib.Data.List.DropRight
import Mathlib.Data.Nat.ModEq

/-!
# Ring buffers

A ring of `c` slots is addressed by counters that only grow, taken modulo
`c`. Counters less than `c` apart name different slots, so the slots between
two of them hold a queue.
-/

namespace Ring

variable {α : Type*}

theorem mod_inj {c a b : Nat} (hle : a ≤ b) (hlt : b < a + c) (h : a % c = b % c) : a = b := by
  have hd : (b - a) % c = 0 := Nat.sub_mod_eq_zero_of_mod_eq h.symm
  rw [Nat.mod_eq_of_lt (by omega)] at hd
  omega

/-- The distance between two slots, going up. -/
def dist (c h t : Nat) : Nat := (t + c - h) % c

theorem dist_mod {c a b : Nat} (hle : a ≤ b) (hlt : b < a + c) : dist c (a % c) (b % c) = b - a := by
  have hc : 0 < c := by omega
  have ha := Nat.mod_lt a hc
  have hb := Nat.mod_lt b hc
  have hda := Nat.div_add_mod a c
  have hdb := Nat.div_add_mod b c
  have h1 : c * (b / c) + (b % c) = c * (a / c) + (a % c) + (b - a) := by omega
  unfold dist
  rcases Nat.lt_or_ge (b % c) (a % c) with hw | hw
  · -- the counters are in neighbouring turns of the ring
    have hq : b / c = a / c + 1 := by
      rcases Nat.lt_trichotomy (b / c) (a / c + 1) with h | h | h
      · have := Nat.mul_le_mul_left c (Nat.le_of_lt_succ h); omega
      · exact h
      · have := Nat.mul_le_mul_left c h
        rw [Nat.mul_succ, Nat.mul_succ] at this; omega
    rw [hq, Nat.mul_succ] at h1
    rw [show b % c + c - a % c = b - a by omega]
    exact Nat.mod_eq_of_lt (by omega)
  · have hq : b / c = a / c := by
      rcases Nat.lt_trichotomy (b / c) (a / c) with h | h | h
      · have := Nat.mul_le_mul_left c h
        rw [Nat.mul_succ] at this; omega
      · exact h
      · have := Nat.mul_le_mul_left c h
        rw [Nat.mul_succ] at this; omega
    rw [hq] at h1
    rw [show b % c + c - a % c = (b - a) + c by omega, Nat.add_mod_right]
    exact Nat.mod_eq_of_lt (by omega)

/-- The contents of `n` slots from slot `h` on. -/
def slots (buf : Nat → α) (c h n : Nat) : List α := (List.range n).map fun i => buf ((h + i) % c)

theorem getElem?_slots (buf : Nat → α) (c h n i : Nat) :
    (slots buf c h n)[i]? = if i < n then some (buf ((h + i) % c)) else none := by
  unfold slots
  rw [List.getElem?_map]
  by_cases hi : i < n
  · rw [List.getElem?_range hi, if_pos hi]; rfl
  · rw [if_neg hi, List.getElem?_eq_none (by simp only [List.length_range]; omega)]; rfl

/-- A list whose positions from `a` on are in the slots from `a` on ends with those slots. -/
theorem drop_eq_slots {buf : Nat → α} {c a : Nat} {l : List α}
    (h : ∀ i, a ≤ i → i < l.length → l[i]? = some (buf (i % c))) :
    l.drop a = slots buf c (a % c) (l.length - a) := by
  apply List.ext_getElem?
  intro i
  rw [List.getElem?_drop, getElem?_slots, Nat.mod_add_mod]
  by_cases hi : i < l.length - a
  · rw [if_pos hi, h (a + i) (by omega) (by omega)]
  · rw [if_neg hi, List.getElem?_eq_none (by omega)]

/-! ## Queues of bounded length -/

theorem rtake_snoc (vs : List α) (v : α) {c : Nat} (hc : 0 < c) :
    (vs.rtake c ++ [v]).rtake c = (vs ++ [v]).rtake c := by
  obtain ⟨c, rfl⟩ := Nat.exists_eq_add_one.mpr hc
  rw [List.rtake_concat_succ, List.rtake_concat_succ, List.rtake_eq_reverse_take_reverse,
    List.rtake_eq_reverse_take_reverse, List.rtake_eq_reverse_take_reverse, List.reverse_reverse, List.take_take,
    Nat.min_eq_left (Nat.le_succ c)]

/-- The slots from `h` on hold the queue `vs`. -/
structure Holds (cells : Nat → Option α) (c h : Nat) (vs : List α) : Prop where
  fits : vs.length ≤ c
  slot : ∀ i < vs.length, cells ((h + i) % c) = vs[i]?

namespace Holds

variable {cells cells' : Nat → Option α} {c h : Nat} {v : α} {vs : List α}

theorem push (hr : Holds cells c h vs) (hroom : vs.length < c) (hv : cells' ((h + vs.length) % c) = some v)
    (hframe : ∀ j, j ≠ (h + vs.length) % c → cells' j = cells j) : Holds cells' c h (vs ++ [v]) where
  fits := by simpa using Nat.succ_le_of_lt hroom
  slot := by
    intro i hi
    rw [List.length_append, List.length_singleton] at hi
    rcases Nat.lt_succ_iff_lt_or_eq.mp hi with hi | rfl
    · have hne : (h + i) % c ≠ (h + vs.length) % c := by
        intro heq
        have := mod_inj (by omega) (by omega) heq
        omega
      rw [hframe _ hne, hr.slot i hi, List.getElem?_append_left hi]
    · rw [hv, List.getElem?_concat_length]

theorem pop (hr : Holds cells c h (v :: vs)) : Holds cells c ((h + 1) % c) vs where
  fits := Nat.le_of_succ_le hr.fits
  slot := by
    intro i hi
    rw [Nat.mod_add_mod, Nat.add_assoc, Nat.add_comm 1 i, hr.slot (i + 1) (Nat.succ_lt_succ hi),
      List.getElem?_cons_succ]

end Holds

end Ring
