import Playground.Lib.Ring
import Playground.RingBuffer

/-!
# What a ring buffer holds

The slots from `head_` on are a queue. A push puts the value behind it, and
drops the first one when there is no room, so that the last values pushed are
held, as many of them as there are slots.
-/

namespace Playground.RingBuffer

section
variable {T : Type} {Capacity : Nat} {r : RingBuffer T Capacity} {vs : List T}

structure Represents (r : RingBuffer T Capacity) (vs : List T) : Prop where
  head_lt : r.head < Capacity
  size : r.size = vs.length
  holds : Ring.Holds (fun i => r.data[i]?) Capacity r.head vs

theorem represents_new (hc : 1 ≤ Capacity) (zero : T) : Represents (new zero : RingBuffer T Capacity) [] where
  head_lt := hc
  size := rfl
  holds := ⟨Nat.zero_le _, fun i hi => absurd hi (Nat.not_lt_zero i)⟩

theorem push_room (h : Represents r vs) (hroom : vs.length < Capacity) (value : T) :
    ∃ r', push r value = some r' ∧ Represents r' (vs ++ [value]) := by
  have hi : (r.head + r.size) % Capacity < Capacity := Nat.mod_lt _ (Nat.zero_lt_of_lt hroom)
  refine ⟨{ r with data := r.data.set _ value hi, size := r.size + 1 }, ?_, h.head_lt, ?_, ?_⟩
  · unfold push
    rw [dif_pos hi, if_pos (h.size ▸ hroom)]
  · simp [h.size]
  · apply h.holds.push hroom
    · simp [h.size]
    · intro j hj
      rw [← h.size] at hj
      exact Vector.getElem?_set_ne hi hj.symm

theorem push_full {first : T} (h : Represents r (first :: vs)) (hfull : vs.length + 1 = Capacity) (value : T) :
    ∃ r', push r value = some r' ∧ Represents r' (vs ++ [value]) := by
  have hsize : r.size = Capacity := by rw [h.size, List.length_cons, hfull]
  have hi : (r.head + r.size) % Capacity < Capacity := Nat.mod_lt _ (by omega)
  have hslot : ((r.head + 1) % Capacity + vs.length) % Capacity = (r.head + r.size) % Capacity := by
    rw [Nat.mod_add_mod, Nat.add_assoc, Nat.add_comm 1, hfull, hsize]
  refine ⟨{ r with data := r.data.set _ value hi, head := (r.head + 1) % Capacity }, ?_, ?_, ?_, ?_⟩
  · unfold push
    rw [dif_pos hi, if_neg (by omega)]
  · exact Nat.mod_lt _ (by omega)
  · simp [h.size]
  · apply h.holds.pop.push (by omega)
    · rw [hslot]
      exact Vector.getElem?_set_self hi
    · intro j hj
      rw [hslot] at hj
      exact Vector.getElem?_set_ne hi hj.symm

theorem push_spec (hc : 1 ≤ Capacity) (h : Represents r vs) (value : T) :
    ∃ r', push r value = some r' ∧ Represents r' ((vs ++ [value]).rtake Capacity) := by
  have hfits := h.holds.fits
  rcases Nat.lt_or_eq_of_le hfits with hroom | hfull
  · rw [List.rtake, List.length_append, List.length_singleton, Nat.sub_eq_zero_of_le hroom, List.drop_zero]
    exact push_room h hroom value
  · cases vs with
    | nil => exact absurd hfull (by simp; omega)
    | cons first vs =>
      rw [List.length_cons] at hfull
      rw [List.rtake, List.length_append, List.length_cons, List.length_singleton, hfull, Nat.add_sub_cancel_left]
      exact push_full h hfull value

theorem holdsLast_exec (hc : 1 ≤ Capacity) (zero : T) (values : List T) :
    ∃ r, (buffer Capacity zero).exec values = some r ∧ Represents r (values.rtake Capacity) := by
  apply (buffer Capacity zero).exec_inv
  · rw [List.rtake_nil]
    exact represents_new hc zero
  · intro values r value _ h
    obtain ⟨r', hp, h'⟩ := push_spec hc h value
    rw [Ring.rtake_snoc values value hc] at h'
    have hstep : (buffer Capacity zero).step r value = some (r', ()) := by
      change (push r value).map _ = _
      rw [hp]
      rfl
    exact ⟨r', (), hstep, h'⟩

/-! ## Accessors -/

theorem front_spec (h : Represents r vs) (hne : vs ≠ []) : front r = vs.head? := by
  have hslot := h.holds.slot 0 (List.length_pos_iff.mpr hne)
  rw [Nat.add_zero, Nat.mod_eq_of_lt h.head_lt] at hslot
  rw [List.head?_eq_getElem?, ← hslot]
  rfl

theorem back_spec (h : Represents r vs) (hne : vs ≠ []) : back r = vs.getLast? := by
  have hpos := List.length_pos_iff.mpr hne
  have hslot := h.holds.slot (vs.length - 1) (by omega)
  have hsize := h.size
  rw [List.getLast?_eq_getElem?, ← hslot, ← Nat.add_sub_assoc hpos, ← h.size]
  unfold back pred
  rw [if_neg (by omega)]

/-- The loop over the values is where `rest` begins. -/
structure Visits (r : RingBuffer T Capacity) (vs rest : List T) (p : Iterator T Capacity × List T) : Prop where
  data : p.1.data = r.data
  head : p.1.head = r.head
  index : p.1.index = p.2.length
  split : p.2 ++ rest = vs

theorem Visits.done {p : Iterator T Capacity × List T} (h : Represents r vs) (hv : Visits r vs [] p) :
    visit («end» r) p = .exit := by
  have hsplit := hv.split
  rw [List.append_nil] at hsplit
  have hend : p.1.index = («end» r).index := by
    rw [hv.index, hsplit]
    exact h.size.symm
  exact if_pos hend

theorem Visits.next {value : T} {rest : List T} {p : Iterator T Capacity × List T} (h : Represents r vs)
    (hv : Visits r vs (value :: rest) p) : ∃ p', visit («end» r) p = .next p' ∧ Visits r vs rest p' := by
  have hlt : p.1.index < vs.length := by
    rw [hv.index, ← hv.split, List.length_append, List.length_cons]
    omega
  have hend : p.1.index ≠ («end» r).index := by
    have hsize : («end» r).index = vs.length := h.size
    omega
  have hderef : p.1.deref = some value := by
    have hslot := h.holds.slot p.1.index hlt
    rw [hv.index, ← hv.split, List.getElem?_append_right (Nat.le_refl _), Nat.sub_self,
      List.getElem?_cons_zero] at hslot
    rw [Iterator.deref, hv.data, hv.head, hv.index]
    exact hslot
  refine ⟨(p.1.increment, p.2 ++ [value]), ?_, hv.data, hv.head, ?_, ?_⟩
  · rw [visit, if_neg hend, hderef]
    rfl
  · simp [Iterator.increment, hv.index]
  · simp [← hv.split]

theorem iterate_spec (h : Represents r vs) {n : Nat} (hn : r.size < n) : iterate n r = some vs := by
  have hstart : Visits r vs vs (begin r, []) := ⟨rfl, rfl, rfl, rfl⟩
  obtain ⟨p, hrun, hv⟩ :=
    Loop.run_traverse (fun _ => Visits.done h) (fun _ _ _ => Visits.next h) hstart (h.size ▸ hn)
  have hsplit := hv.split
  rw [List.append_nil] at hsplit
  rw [iterate, hrun, ← hsplit]
  rfl

/-- After any pushes the buffer holds the last ones, and everything that reads it says so. -/
theorem ringBuffer_exec (Capacity : Nat) (hc : 1 ≤ Capacity) (zero : T) (values : List T) :
    ∃ r, (buffer Capacity zero).exec values = some r ∧ r.size = min values.length Capacity ∧
      (∀ n, r.size < n → iterate n r = some (values.drop (values.length - min values.length Capacity))) ∧
      (1 ≤ values.length →
        ∃ first last, front r = some first ∧ back r = some last ∧
          (values.drop (values.length - min values.length Capacity)).head? = some first ∧
          (values.drop (values.length - min values.length Capacity)).getLast? = some last) := by
  obtain ⟨r, he, h⟩ := holdsLast_exec hc zero values
  have hlast : values.rtake Capacity = values.drop (values.length - min values.length Capacity) := by
    rw [List.rtake]
    congr 1
    omega
  rw [hlast] at h
  refine ⟨r, he, ?_, fun n hn => iterate_spec h hn, fun hpos => ?_⟩
  · rw [h.size, List.length_drop]
    omega
  · have hne : values.drop (values.length - min values.length Capacity) ≠ [] := by
      rw [ne_eq, List.drop_eq_nil_iff]
      omega
    exact ⟨_, _, (front_spec h hne).trans (List.head?_eq_some_head hne),
      (back_spec h hne).trans (List.getLast?_eq_some_getLast hne), List.head?_eq_some_head hne,
      List.getLast?_eq_some_getLast hne⟩

theorem ringBuffer_exec_seven : ∃ r, (buffer 5 0).exec [10, 20, 30, 40, 50, 60, 70] = some r ∧ r.size = 5 ∧
    iterate 6 r = some [30, 40, 50, 60, 70] ∧ front r = some 30 ∧ back r = some 70 := by
  obtain ⟨r, he, hsize, hvalues, hends⟩ := ringBuffer_exec 5 (by decide) 0 [10, 20, 30, 40, 50, 60, 70]
  obtain ⟨first, last, hf, hb, hfirst, hlast⟩ := hends (by decide)
  obtain rfl : 30 = first := Option.some.inj hfirst
  obtain rfl : 70 = last := Option.some.inj hlast
  exact ⟨r, he, hsize, hvalues 6 (hsize ▸ by decide), hf, hb⟩

end

end Playground.RingBuffer
