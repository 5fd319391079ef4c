import Mathlib.Data.Fintype.Card
import Playground.BoundedBuffer

/-!
# The bounded buffer keeps order and loses no wakeup

While a consumer waits, every item is matched by a woken consumer, and while a
producer waits, every free slot by a woken producer. A critical section pays
for its change of the buffer with its `notify_one`, and for its own thread's
waiting with a buffer that is empty, or full.
-/

namespace Playground.BoundedBuffer

open Monitor

section
variable {T α : Type} [Fintype T]

structure Inv (capacity : Nat) (s : State T α) : Prop where
  bounded : s.buffer.length ≤ capacity
  fifo : s.produced = s.consumed ++ s.buffer
  notEmpty : Covered Pc.waitsNotEmpty Pc.isWokenNotEmpty s.buffer.length s.pc
  notFull : Covered Pc.waitsNotFull Pc.isWokenNotFull (capacity - s.buffer.length) s.pc

/-- A waiting producer and a waiting consumer cannot both be right about the buffer. -/
theorem Inv.live {capacity : Nat} {s : State T α} (hc : 0 < capacity) (h : Inv capacity s)
    (hp : ∃ t, (s.pc t).waitsNotFull = true) (hq : ∃ t, (s.pc t).waitsNotEmpty = true) :
    ∃ t, (s.pc t).isWokenNotFull = true ∨ (s.pc t).isWokenNotEmpty = true := by
  have h₁ := h.notFull (count_pos.mpr hp)
  have h₂ := h.notEmpty (count_pos.mpr hq)
  by_cases hpos : 0 < count Pc.isWokenNotEmpty s.pc
  · obtain ⟨t, ht⟩ := count_pos.mp hpos
    exact ⟨t, Or.inr ht⟩
  · obtain ⟨t, ht⟩ := count_pos.mp (show 0 < count Pc.isWokenNotFull s.pc by omega)
    exact ⟨t, Or.inl ht⟩

variable [DecidableEq T] {capacity : Nat} {s s' : State T α} {t : T}

theorem inv_init : Inv capacity (boundedBuffer T α capacity).init where
  bounded := Nat.zero_le _
  fifo := rfl
  notEmpty := fun _ => Nat.zero_le _
  notFull := fun hw => by
    obtain ⟨t, ht⟩ := count_pos.mp hw
    cases ht

/-! ## Wakeups of one side, seen from the other -/

section
omit [Fintype T] [DecidableEq T]

theorem wake_notEmpty (c : Pc α) (h : c.waitsNotEmpty = true) :
    (wake c).waitsNotEmpty = false ∧ c.isWokenNotEmpty = false ∧ (wake c).isWokenNotEmpty = true := by
  cases c <;> first | exact ⟨rfl, rfl, rfl⟩ | cases h

theorem wake_notEmpty_notFull (c : Pc α) (h : c.waitsNotEmpty = true) :
    (wake c).waitsNotFull = false ∧ (wake c).isWokenNotFull = c.isWokenNotFull := by
  cases c <;> first | exact ⟨rfl, rfl⟩ | cases h

theorem wake_notFull (c : Pc α) (h : c.waitsNotFull = true) :
    (wake c).waitsNotFull = false ∧ c.isWokenNotFull = false ∧ (wake c).isWokenNotFull = true := by
  cases c <;> first | exact ⟨rfl, rfl, rfl⟩ | cases h

theorem wake_notFull_notEmpty (c : Pc α) (h : c.waitsNotFull = true) :
    (wake c).waitsNotEmpty = false ∧ (wake c).isWokenNotEmpty = c.isWokenNotEmpty := by
  cases c <;> first | exact ⟨rfl, rfl⟩ | cases h

end

/-! ## The critical sections -/

theorem inv_produce (h : Inv capacity s) {item : α} {w : Option T} (ht : (s.pc t).waitsNotEmpty = false)
    (hcr : (s.pc t).isWokenNotEmpty = false) (hs : produce capacity s t item w = some s') : Inv capacity s' := by
  unfold produce at hs
  split at hs
  · rename_i hlt
    obtain ⟨pc, hn, rfl⟩ := Option.map_eq_some_iff.mp hs
    have hlen : (s.buffer ++ [item]).length = s.buffer.length + 1 := by simp
    exact {
      bounded := hlen ▸ hlt
      fifo := by
        show s.produced ++ [item] = s.consumed ++ (s.buffer ++ [item])
        rw [h.fifo, List.append_assoc]
      notEmpty := by
        apply h.notEmpty.notifyOne hn wake_notEmpty ht rfl
        rw [hcr, hlen]
        exact Nat.le_refl _
      notFull := by
        apply (h.notFull.notifyOther hn wake_notEmpty_notFull).update
        have := Bool.toNat_le (pc t).isWokenNotFull
        right
        refine ⟨rfl, Or.inr ?_⟩
        show capacity - (s.buffer ++ [item]).length + _ ≤ _ + 0
        omega }
  · rename_i hge
    obtain rfl := Option.some.inj hs
    exact {
      bounded := h.bounded
      fifo := h.fifo
      notEmpty := h.notEmpty.update (Or.inr ⟨rfl, Or.inr (by rw [hcr]; exact Nat.le_refl _)⟩)
      notFull := h.notFull.update (Or.inl (Nat.sub_eq_zero_of_le (Nat.le_of_not_lt hge))) }

theorem inv_consume (h : Inv capacity s) {w : Option T} (ht : (s.pc t).waitsNotFull = false)
    (hcr : (s.pc t).isWokenNotFull = false) (hs : consume s t w = some s') : Inv capacity s' := by
  unfold consume at hs
  split at hs
  · rename_i hb
    obtain rfl := Option.some.inj hs
    exact {
      bounded := h.bounded
      fifo := h.fifo
      notEmpty := h.notEmpty.update (Or.inl (by rw [hb]; rfl))
      notFull := h.notFull.update (Or.inr ⟨rfl, Or.inr (by rw [hcr]; exact Nat.le_refl _)⟩) }
  · rename_i item buffer hb
    obtain ⟨pc, hn, rfl⟩ := Option.map_eq_some_iff.mp hs
    have hbound := h.bounded
    have hlen : s.buffer.length = buffer.length + 1 := by rw [hb]; rfl
    exact {
      bounded := by
        show buffer.length ≤ capacity
        omega
      fifo := by
        show s.produced = s.consumed ++ [item] ++ buffer
        rw [h.fifo, hb, List.append_assoc]
        rfl
      notEmpty := by
        apply (h.notEmpty.notifyOther hn wake_notFull_notEmpty).update
        have := Bool.toNat_le (pc t).isWokenNotEmpty
        right
        refine ⟨rfl, Or.inr ?_⟩
        show buffer.length + _ ≤ _ + 0
        omega
      notFull := by
        apply h.notFull.notifyOne hn wake_notFull ht rfl
        rw [hcr]
        show capacity - buffer.length + 0 ≤ capacity - s.buffer.length + 1 + 0
        omega }

theorem inv_spurious (h : Inv capacity s) :
    Inv capacity { s with pc := Function.update s.pc t (wake (s.pc t)) } where
  bounded := h.bounded
  fifo := h.fifo
  notEmpty := by
    apply h.notEmpty.update
    right
    cases s.pc t <;> first | exact ⟨rfl, Or.inr (Nat.le_refl _)⟩ | exact ⟨rfl, Or.inr (Nat.le_succ _)⟩
  notFull := by
    apply h.notFull.update
    right
    cases s.pc t <;> first | exact ⟨rfl, Or.inr (Nat.le_refl _)⟩ | exact ⟨rfl, Or.inr (Nat.le_succ _)⟩

theorem inv_step {a : Act T α} (h : Inv capacity s) (hs : step capacity s a = some s') : Inv capacity s' := by
  cases a with
  | produce t item w =>
    cases hp : s.pc t with
    | idle =>
      simp only [step, hp] at hs
      exact inv_produce h (by rw [hp]; rfl) (by rw [hp]; rfl) hs
    | _ => simp only [step, hp, reduceCtorEq] at hs
  | consume t w =>
    cases hp : s.pc t with
    | idle =>
      simp only [step, hp] at hs
      exact inv_consume h (by rw [hp]; rfl) (by rw [hp]; rfl) hs
    | _ => simp only [step, hp, reduceCtorEq] at hs
  | recheck t w =>
    cases hp : s.pc t with
    | wokenNotFull item =>
      simp only [step, hp] at hs
      exact inv_produce h (by rw [hp]; rfl) (by rw [hp]; rfl) hs
    | wokenNotEmpty =>
      simp only [step, hp] at hs
      exact inv_consume h (by rw [hp]; rfl) (by rw [hp]; rfl) hs
    | _ => simp only [step, hp, reduceCtorEq] at hs
  | spurious t =>
    simp only [step, Option.ite_none_right_eq_some, Option.some.injEq] at hs
    exact hs.2 ▸ inv_spurious h

theorem inv_reachable (h : (boundedBuffer T α capacity).Reachable s) : Inv capacity s :=
  h.inv inv_init fun _ _ _ hi hs => inv_step hi hs

/-! ## The buffer, from outside -/

structure BoundedBufferOk (capacity : Nat) (s : State T α) : Prop where
  bounded : s.buffer.length ≤ capacity
  fifo : s.produced = s.consumed ++ s.buffer
  notEmpty : (∃ t, (s.pc t).waitsNotEmpty = true) → s.buffer.length ≤ count Pc.isWokenNotEmpty s.pc
  notFull : (∃ t, (s.pc t).waitsNotFull = true) → capacity - s.buffer.length ≤ count Pc.isWokenNotFull s.pc
  live : (∃ t, (s.pc t).waitsNotFull = true) → (∃ t, (s.pc t).waitsNotEmpty = true) →
    ∃ t, (s.pc t).isWokenNotFull = true ∨ (s.pc t).isWokenNotEmpty = true

/-- **The buffer is a bounded FIFO queue without lost wakeups**, for any threads and any interleaving. -/
theorem boundedBuffer_reachable (capacity : Nat) (hc : 0 < capacity) (s : State T α)
    (h : (boundedBuffer T α capacity).Reachable s) : BoundedBufferOk capacity s := by
  have hi := inv_reachable h
  exact {
    bounded := hi.bounded
    fifo := hi.fifo
    notEmpty := fun hw => hi.notEmpty (count_pos.mpr hw)
    notFull := fun hw => hi.notFull (count_pos.mpr hw)
    live := hi.live hc }

end

/-- At capacity 1: a consumer waits, is notified, finds its item stolen, and a producer waits next to it. -/
def stolen : List (Act (Fin 3) Nat) :=
  [.consume 0 none, .produce 1 5 (some 0), .consume 2 none, .recheck 0 none, .produce 1 6 (some 0),
    .produce 1 7 none, .recheck 0 (some 1)]

theorem boundedBuffer_stolen :
    ∃ s, (boundedBuffer (Fin 3) Nat 1).run (boundedBuffer (Fin 3) Nat 1).init stolen = some s ∧
    s.consumed = [5, 6] ∧ s.pc 1 = .wokenNotFull 7 ∧ BoundedBufferOk 1 s :=
  ⟨_, rfl, rfl, rfl, boundedBuffer_reachable 1 (by decide) _ (System.reachable_of_run stolen .init rfl)⟩

end Playground.BoundedBuffer
