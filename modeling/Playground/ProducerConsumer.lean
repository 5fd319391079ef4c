import Mathlib.Data.Fintype.Sum
import Playground.BoundedBufferCalls
import Playground.Tickets

/-!
# Producers and consumers (`main` of `concurrency/producer_consumer.cpp`)

The whole program, for any number of producers with any items and any number
of consumers: a producer calls `produce` for one item after another and counts
each of them, a consumer takes a ticket for each call of `consume`. A step is
a critical section of the buffer, an atomic operation, or the return of a
call.
-/

namespace Playground.ProducerConsumer

structure State (P C α : Type) where
  buffer : BoundedBuffer.State (P ⊕ C) α := {}
  tickets : Tickets.State C := {}
  todo : P → List α
  -- between the call of `produce` and the increment after it
  busy : P → Bool := fun _ => false
  producedCount : Int32 := 0

inductive Act (P C : Type)
  | produce (p : P) (w : Option (P ⊕ C))
  | count (p : P)
  | consume (c : C) (w : Option (P ⊕ C))
  | consumer (c : C)
  | recheck (t : P ⊕ C) (w : Option (P ⊕ C))
  | spurious (t : P ⊕ C)

def Act.isSpurious {P C : Type} : Act P C → Bool
  | .spurious _ => true
  | _ => false

section
variable {P C α : Type}

/-- A consumer's step that does not call `consume`, and returns from it only when the call is over. -/
def State.steps (s : State P C α) (c : C) : Bool :=
  match s.tickets.pc c with
  | .consume => false
  | .consuming => (s.buffer.calls (.inr c)).isNone
  | _ => true

variable [Fintype P] [DecidableEq P] [Fintype C] [DecidableEq C] (total : Int32) (capacity : Nat)

def step (s : State P C α) : Act P C → Option (State P C α)
  | .produce p w =>
    match s.todo p with
    | [] => none
    | item :: rest =>
      if s.busy p then none
      else (BoundedBuffer.step capacity s.buffer (.produce (.inl p) item w)).map fun b =>
        { s with buffer := b, todo := Function.update s.todo p rest, busy := Function.update s.busy p true }
  | .count p =>
    if s.busy p ∧ s.buffer.calls (.inl p) = none then
      some { s with busy := Function.update s.busy p false, producedCount := s.producedCount + 1 }
    else none
  | .consume c w =>
    if s.tickets.pc c = .consume then
      (BoundedBuffer.step capacity s.buffer (.consume (.inr c) w)).bind fun b =>
        (Tickets.step total s.tickets c).map fun t => { s with buffer := b, tickets := t }
    else none
  | .consumer c =>
    if s.steps c then (Tickets.step total s.tickets c).map fun t => { s with tickets := t } else none
  | .recheck t w => (BoundedBuffer.step capacity s.buffer (.recheck t w)).map fun b => { s with buffer := b }
  | .spurious t => (BoundedBuffer.step capacity s.buffer (.spurious t)).map fun b => { s with buffer := b }

def demo (items : P → List α) : System (State P C α) (Act P C) where
  init := { todo := items }
  step := step total capacity

/-! ## One step -/

inductive Turn (s : State P C α) : Act P C → State P C α → Prop
  | produce {p w item rest b} (htodo : s.todo p = item :: rest) (hbusy : s.busy p = false)
      (hb : BoundedBuffer.step capacity s.buffer (.produce (.inl p) item w) = some b) :
      Turn s (.produce p w)
        { s with buffer := b, todo := Function.update s.todo p rest, busy := Function.update s.busy p true }
  | count {p} (hbusy : s.busy p = true) (hcall : s.buffer.calls (.inl p) = none) :
      Turn s (.count p)
        { s with busy := Function.update s.busy p false, producedCount := s.producedCount + 1 }
  | consume {c w b t} (hp : s.tickets.pc c = .consume)
      (hb : BoundedBuffer.step capacity s.buffer (.consume (.inr c) w) = some b)
      (ht : Tickets.step total s.tickets c = some t) : Turn s (.consume c w) { s with buffer := b, tickets := t }
  | consumer {c t} (hp : s.tickets.pc c ≠ .consume)
      (hcall : s.tickets.pc c = .consuming → s.buffer.calls (.inr c) = none)
      (ht : Tickets.step total s.tickets c = some t) : Turn s (.consumer c) { s with tickets := t }
  | recheck {u w b} (hb : BoundedBuffer.step capacity s.buffer (.recheck u w) = some b) :
      Turn s (.recheck u w) { s with buffer := b }
  | spurious {u b} (hb : BoundedBuffer.step capacity s.buffer (.spurious u) = some b) :
      Turn s (.spurious u) { s with buffer := b }

variable {total capacity} {s s' : State P C α} {act : Act P C}

omit [Fintype P] [DecidableEq P] [Fintype C] [DecidableEq C] in
theorem steps_iff {c : C} : s.steps c = true ↔
    s.tickets.pc c ≠ .consume ∧ (s.tickets.pc c = .consuming → s.buffer.calls (.inr c) = none) := by
  unfold State.steps
  cases hp : s.tickets.pc c <;> simp

theorem turn_step (h : step total capacity s act = some s') : Turn total capacity s act s' := by
  cases act with
  | produce p w =>
    cases htodo : s.todo p with
    | nil => simp [step, htodo] at h
    | cons item rest =>
      simp only [step, htodo, Option.ite_none_left_eq_some, Option.map_eq_some_iff] at h
      obtain ⟨hbusy, b, hb, rfl⟩ := h
      exact .produce htodo (Bool.eq_false_iff.mpr hbusy) hb
  | count p =>
    simp only [step, Option.ite_none_right_eq_some, Option.some.injEq] at h
    obtain ⟨⟨hbusy, hcall⟩, rfl⟩ := h
    exact .count hbusy hcall
  | consume c w =>
    simp only [step, Option.ite_none_right_eq_some, Option.bind_eq_some_iff, Option.map_eq_some_iff] at h
    obtain ⟨hp, b, hb, t, ht, rfl⟩ := h
    exact .consume hp hb ht
  | consumer c =>
    simp only [step, Option.ite_none_right_eq_some, Option.map_eq_some_iff] at h
    obtain ⟨hsteps, t, ht, rfl⟩ := h
    obtain ⟨hp, hcall⟩ := steps_iff.mp hsteps
    exact .consumer hp hcall ht
  | recheck u w =>
    obtain ⟨b, hb, rfl⟩ := Option.map_eq_some_iff.mp h
    exact .recheck hb
  | spurious u =>
    obtain ⟨b, hb, rfl⟩ := Option.map_eq_some_iff.mp h
    exact .spurious hb

/-- The program is made of the two protocols: each of its states is one of theirs. -/
theorem reachable_parts {items : P → List α} (h : (demo total capacity items).Reachable s) :
    (BoundedBuffer.boundedBuffer (P ⊕ C) α capacity).Reachable s.buffer ∧
      (Tickets.tickets C total).Reachable s.tickets := by
  induction h with
  | init => exact ⟨.init, .init⟩
  | step act _ hs ih =>
    obtain ⟨hb, ht⟩ := ih
    cases turn_step hs with
    | produce _ _ hb' => exact ⟨hb.step (.produce _ _ _) hb', ht⟩
    | count _ _ => exact ⟨hb, ht⟩
    | consume _ hb' ht' => exact ⟨hb.step (.consume _ _) hb', ht.step _ ht'⟩
    | consumer _ _ ht' => exact ⟨hb, ht.step _ ht'⟩
    | recheck hb' => exact ⟨hb.step (.recheck _ _) hb', ht⟩
    | spurious hb' => exact ⟨hb.step (.spurious _) hb', ht⟩

end

end Playground.ProducerConsumer
