import Mathlib.Algebra.BigOperators.Ring.Finset
import Mathlib.Data.Fintype.BigOperators
import Playground.ProducerConsumerSound

/-!
# The program ends

Every step but a wakeup that nobody asked for brings the program nearer to its
end: what is left of it is a sum over the threads, the tickets that are not
yet granted, and the woken threads. So a run is finite as long as such wakeups
are, and where it ends everybody has finished.
-/

namespace Playground.ProducerConsumer

open Monitor
open BoundedBuffer (Side)

/-- What is left for a consumer that takes no further ticket. -/
def consumerRest : Tickets.Pc → Option Side → Nat
  | .load, _ => 3
  | .fetchAdd, _ => 2
  | .consume, _ => 6
  | .consuming, none => 4
  | .consuming, some _ => 5
  | .fetchSub, _ => 1
  | .exited, _ => 0

/-- What is left for a producer that is to produce `n` more items. -/
def producerRest (n : Nat) : Bool → Option Side → Nat
  | false, _ => 8 * n
  | true, none => 8 * n + 1
  | true, some _ => 8 * n + 5

section
variable {P C α : Type}

def State.share (s : State P C α) (t : P ⊕ C) : Nat :=
  match t with
  | .inl p => producerRest (s.todo p).length (s.busy p) (s.buffer.calls t)
  | .inr c => consumerRest (s.tickets.pc c) (s.buffer.calls t)

variable [Fintype P] [Fintype C]

def rest (total : Int32) (s : State P C α) : Nat :=
  5 * (total.toInt.toNat - s.tickets.granted) + ∑ t, s.share t + count BoundedBuffer.Pc.isWoken s.buffer.pc

variable [DecidableEq P] [DecidableEq C] {total : Int32} {capacity : Nat} {items : P → List α} {s s' : State P C α}
  {b : BoundedBuffer.State (P ⊕ C) α} {t : P ⊕ C} {side : Side}

/-- One thread moves; its share, the tickets and the woken threads make the difference. -/
theorem rest_lt (h : ∀ u, u ≠ t → s'.share u = s.share u)
    (hlt : 5 * (total.toInt.toNat - s'.tickets.granted) + s'.share t + count BoundedBuffer.Pc.isWoken s'.buffer.pc <
      5 * (total.toInt.toNat - s.tickets.granted) + s.share t + count BoundedBuffer.Pc.isWoken s.buffer.pc) :
    rest total s' < rest total s := by
  have hsum := sum_change h
  unfold rest
  omega

/-! ## One step -/

theorem rest_produce {p : P} {item : α} {l : List α} (htodo : s.todo p = item :: l) (hbusy : s.busy p = false)
    (hidle : s.buffer.pc (.inl p) = .idle)
    (hb : BoundedBuffer.Completes .producing s.buffer b (.inl p) ∨
      BoundedBuffer.Waits .producing s.buffer b (.inl p)) :
    rest total { s with buffer := b, todo := Function.update s.todo p l, busy := Function.update s.busy p true } <
      rest total s := by
  refine rest_lt (t := .inl p) ?_ ?_
  · intro u hu
    cases u with
    | inl q =>
      have hq : q ≠ p := fun h => hu (congrArg Sum.inl h)
      show producerRest (Function.update s.todo p l q).length (Function.update s.busy p true q)
        (b.calls (.inl q)) = _
      rw [Function.update_of_ne hq, Function.update_of_ne hq, BoundedBuffer.calls_other hb hu]
      rfl
    | inr c => exact congrArg (consumerRest _) (BoundedBuffer.calls_other hb hu)
  · show 5 * (total.toInt.toNat - s.tickets.granted) +
      producerRest (Function.update s.todo p l p).length (Function.update s.busy p true p) (b.calls (.inl p)) +
      count BoundedBuffer.Pc.isWoken b.pc < 5 * (total.toInt.toNat - s.tickets.granted) +
      producerRest (s.todo p).length (s.busy p) _ + _
    rw [Function.update_self, Function.update_self, htodo, hbusy, List.length_cons]
    have hzero := BoundedBuffer.woken_of_idle hidle
    cases hb with
    | inl hb =>
      have hwoken := hb.woken
      rw [hb.calls, Function.update_self, producerRest, producerRest]
      omega
    | inr hb =>
      have hwoken := hb.woken
      rw [hb.calls, Function.update_self, producerRest, producerRest]
      omega

theorem rest_count {p : P} (hbusy : s.busy p = true) (hcall : s.buffer.calls (.inl p) = none) :
    rest total { s with busy := Function.update s.busy p false, producedCount := s.producedCount + 1 } <
      rest total s := by
  refine rest_lt (t := .inl p) ?_ ?_
  · intro u hu
    cases u with
    | inl q =>
      have hq : q ≠ p := fun h => hu (congrArg Sum.inl h)
      show producerRest _ (Function.update s.busy p false q) _ = _
      rw [Function.update_of_ne hq]
      rfl
    | inr c => rfl
  · show 5 * (total.toInt.toNat - s.tickets.granted) +
      producerRest (s.todo p).length (Function.update s.busy p false p) (s.buffer.calls (.inl p)) +
      count BoundedBuffer.Pc.isWoken s.buffer.pc < 5 * (total.toInt.toNat - s.tickets.granted) +
      producerRest (s.todo p).length (s.busy p) (s.buffer.calls (.inl p)) + _
    rw [Function.update_self, hbusy, hcall, producerRest, producerRest]
    omega

theorem rest_consume {c : C} {k : Tickets.State C} (hp : s.tickets.pc c = .consume)
    (hidle : s.buffer.pc (.inr c) = .idle)
    (hb : BoundedBuffer.Completes .consuming s.buffer b (.inr c) ∨
      BoundedBuffer.Waits .consuming s.buffer b (.inr c)) (ht : Tickets.step total s.tickets c = some k) :
    rest total { s with buffer := b, tickets := k } < rest total s := by
  have hk := Tickets.start_step hp ht
  subst hk
  refine rest_lt (t := .inr c) ?_ ?_
  · intro u hu
    cases u with
    | inl p => exact congrArg (producerRest _ _) (BoundedBuffer.calls_other hb hu)
    | inr d =>
      have hd : d ≠ c := fun h => hu (congrArg Sum.inr h)
      show consumerRest (Function.update s.tickets.pc c .consuming d) (b.calls (.inr d)) = _
      rw [Function.update_of_ne hd, BoundedBuffer.calls_other hb hu]
      rfl
  · show 5 * (total.toInt.toNat - s.tickets.granted) +
      consumerRest (Function.update s.tickets.pc c .consuming c) (b.calls (.inr c)) +
      count BoundedBuffer.Pc.isWoken b.pc < 5 * (total.toInt.toNat - s.tickets.granted) +
      consumerRest (s.tickets.pc c) _ + _
    rw [Function.update_self, hp]
    have hzero := BoundedBuffer.woken_of_idle hidle
    cases hb with
    | inl hb =>
      have hwoken := hb.woken
      rw [hb.calls, Function.update_self, consumerRest, consumerRest]
      omega
    | inr hb =>
      have hwoken := hb.woken
      rw [hb.calls, Function.update_self, consumerRest, consumerRest]
      omega

omit [Fintype P] [DecidableEq P] in
/-- A consumer between its calls: what it gives up pays for what it takes on. -/
theorem ticket_rest {c : C} {k : Tickets.State C} (hi : Tickets.Inv total s.tickets)
    (hp : s.tickets.pc c ≠ .consume) (hcall : s.tickets.pc c = .consuming → s.buffer.calls (.inr c) = none)
    (ht : Tickets.step total s.tickets c = some k) :
    5 * (total.toInt.toNat - k.granted) + consumerRest (k.pc c) (s.buffer.calls (.inr c)) <
      5 * (total.toInt.toNat - s.tickets.granted) + consumerRest (s.tickets.pc c) (s.buffer.calls (.inr c)) := by
  have hself : ∀ x, (Function.update s.tickets.pc c x) c = x := fun x => Function.update_self ..
  cases Tickets.turn_step ht with
  | load hc _ => simp [Tickets.State.goto, hc, consumerRest]
  | leave hc _ => simp [Tickets.State.goto, hc, consumerRest]
  | grant hc hlt =>
    have hopen := hi.granted_lt hlt
    simp only [Tickets.State.goto, hself, hc, consumerRest]
    omega
  | refuse hc _ => simp [Tickets.State.goto, hc, consumerRest]
  | start hc => exact absurd hc hp
  | finish hc => simp [Tickets.State.goto, hc, hcall hc, consumerRest]
  | undo hc => simp [Tickets.State.goto, hc, consumerRest]

theorem rest_consumer {c : C} {k : Tickets.State C} (hi : Tickets.Inv total s.tickets)
    (hp : s.tickets.pc c ≠ .consume) (hcall : s.tickets.pc c = .consuming → s.buffer.calls (.inr c) = none)
    (ht : Tickets.step total s.tickets c = some k) : rest total { s with tickets := k } < rest total s := by
  refine rest_lt (t := .inr c) ?_ ?_
  · intro u hu
    cases u with
    | inl p => rfl
    | inr d =>
      have hd : d ≠ c := fun h => hu (congrArg Sum.inr h)
      show consumerRest (k.pc d) _ = _
      rw [(Tickets.turn_step ht).others hd]
      rfl
  · have hlt := ticket_rest hi hp hcall ht
    show 5 * (total.toInt.toNat - k.granted) + consumerRest (k.pc c) (s.buffer.calls (.inr c)) + _ <
      5 * (total.toInt.toNat - s.tickets.granted) + consumerRest (s.tickets.pc c) (s.buffer.calls (.inr c)) + _
    exact Nat.add_lt_add_right hlt _

theorem rest_recheck {u : P ⊕ C} (hi : Inv items s) (hcall : s.buffer.calls u = some side)
    (hw : (s.buffer.pc u).isWoken = true)
    (hb : BoundedBuffer.Completes side s.buffer b u ∨ BoundedBuffer.Waits side s.buffer b u) :
    rest total { s with buffer := b } < rest total s := by
  let s' : State P C α := { s with buffer := b }
  have hothers : ∀ v, v ≠ u → s'.share v = s.share v := by
    intro v hv
    cases v with
    | inl p => exact congrArg (producerRest _ _) (BoundedBuffer.calls_other hb hv)
    | inr c => exact congrArg (consumerRest _) (BoundedBuffer.calls_other hb hv)
  refine rest_lt (t := u) hothers ?_
  show 5 * (total.toInt.toNat - s.tickets.granted) + s'.share u + count BoundedBuffer.Pc.isWoken b.pc <
    5 * (total.toInt.toNat - s.tickets.granted) + s.share u + _
  cases hb with
  | inr hb =>
    have hwoken := hb.woken
    have hcalls : b.calls = s.buffer.calls := by rw [hb.calls, ← hcall, Function.update_eq_self]
    have hsame : s'.share u = s.share u := by
      cases u with
      | inl p => exact congrArg (producerRest _ _) (congrFun hcalls _)
      | inr c => exact congrArg (consumerRest _) (congrFun hcalls _)
    rw [hw, Bool.toNat_true] at hwoken
    omega
  | inl hb =>
    have hwoken := hb.woken
    have hnone : b.calls u = none := by rw [hb.calls, Function.update_self]
    rw [hw, Bool.toNat_true] at hwoken
    have hless : s'.share u < s.share u := by
      cases u with
      | inl p =>
        have hp := (hi.producers p).resolve_left (by rw [hcall]; nofun)
        show producerRest (s.todo p).length (s.busy p) (b.calls (.inl p)) < producerRest (s.todo p).length _ _
        rw [hp.2, hnone, hp.1, producerRest, producerRest]
        omega
      | inr c =>
        have hc := (hi.consumers c).resolve_left (by rw [hcall]; nofun)
        show consumerRest (s.tickets.pc c) (b.calls (.inr c)) < consumerRest (s.tickets.pc c) _
        rw [hc.2, hnone, hc.1, consumerRest, consumerRest]
        omega
    omega

theorem rest_spurious {u : P ⊕ C} (hb : BoundedBuffer.step capacity s.buffer (.spurious u) = some b) :
    rest total { s with buffer := b } ≤ rest total s + 1 := by
  obtain ⟨hcalls, _, hwoken⟩ := BoundedBuffer.spurious_step hb
  have hshares : ∑ t, State.share { s with buffer := b } t = ∑ t, s.share t := by
    refine Finset.sum_congr rfl fun t _ => ?_
    cases t with
    | inl p => exact congrArg (producerRest _ _) (congrFun hcalls _)
    | inr c => exact congrArg (consumerRest _) (congrFun hcalls _)
  show 5 * (total.toInt.toNat - s.tickets.granted) + _ + count BoundedBuffer.Pc.isWoken b.pc ≤ _
  unfold rest
  omega

/-- **One step**, and two for a wakeup that nobody asked for. -/
theorem rest_step {act : Act P C} (hi : Inv items s) (ht : Tickets.Inv total s.tickets)
    (hs : step total capacity s act = some s') : rest total s' + 1 ≤ rest total s + 2 * act.isSpurious.toNat := by
  cases turn_step hs with
  | produce htodo hbusy hb =>
    obtain ⟨hidle, hb⟩ := BoundedBuffer.produce_step hb
    exact rest_produce htodo hbusy hidle hb
  | count hbusy hcall => exact rest_count hbusy hcall
  | consume hp hb hk =>
    obtain ⟨hidle, hb⟩ := BoundedBuffer.consume_step hb
    exact rest_consume hp hidle hb hk
  | consumer hp hcall hk => exact rest_consumer ht hp hcall hk
  | recheck hb =>
    obtain ⟨side, hcall, hw, hb⟩ := BoundedBuffer.recheck_step hb
    exact rest_recheck hi hcall hw hb
  | spurious hb => exact Nat.add_le_add_right (rest_spurious hb) 1

/-! ## Runs -/

theorem rest_init : rest total (demo (C := C) total capacity items).init =
    5 * total.toInt.toNat + 8 * ∑ p, (items p).length + 3 * Fintype.card C := by
  have hwoken : count BoundedBuffer.Pc.isWoken (demo (C := C) total capacity items).init.buffer.pc = 0 :=
    count_eq_zero.mpr fun _ => rfl
  have hproducers : ∑ p, (demo (C := C) total capacity items).init.share (.inl p) = 8 * ∑ p, (items p).length :=
    (Finset.mul_sum ..).symm
  have hconsumers : ∑ c, (demo (C := C) total capacity items).init.share (.inr c) = Fintype.card C * 3 :=
    Finset.sum_const_nat fun _ _ => rfl
  have hgranted : (demo (C := C) total capacity items).init.tickets.granted = 0 := rfl
  rw [rest, hwoken, Fintype.sum_sum_type, hproducers, hconsumers, hgranted]
  omega

variable [Nonempty C]

theorem rest_run (hfit : total.toInt + Fintype.card C ≤ 2 ^ 31) (hitems : ∑ p, (items p).length = total.toInt)
    (acts : List (Act P C)) (hr : (demo total capacity items).Reachable s)
    (hrun : (demo total capacity items).run s acts = some s') :
    rest total s' + acts.length ≤ rest total s + 2 * acts.countP Act.isSpurious := by
  have hlt := total.toInt_lt
  induction acts generalizing s with
  | nil =>
    obtain rfl := Option.some.inj hrun
    exact Nat.le_refl _
  | cons act acts ih =>
    obtain ⟨t, hs, hrun⟩ := Option.bind_eq_some_iff.mp hrun
    have hstep := rest_step (inv_reachable (by omega) hr)
      (Tickets.inv_reachable (by omega) hfit (reachable_parts hr).2) hs
    have hrest := ih (hr.step act hs) hrun
    have hcount : (act :: acts).countP Act.isSpurious = acts.countP Act.isSpurious + act.isSpurious.toNat := by
      rw [List.countP_cons]
      cases act.isSpurious <;> rfl
    rw [List.length_cons, hcount]
    omega

theorem run_length (hfit : total.toInt + Fintype.card C ≤ 2 ^ 31) (hitems : ∑ p, (items p).length = total.toInt)
    {acts : List (Act P C)}
    (hrun : (demo total capacity items).run (demo total capacity items).init acts = some s) :
    acts.length ≤ 13 * total.toInt.toNat + 3 * Fintype.card C + 2 * acts.countP Act.isSpurious := by
  have hrest := rest_run hfit hitems acts .init hrun
  rw [rest_init] at hrest
  omega

/-- **The ticket protocol and the program around it.** At most `total` calls of `consume` are
started, a consumer leaves when all tickets are granted, and when all have left all items were
consumed and the counter says so. With `total` items to produce and a buffer of some capacity, a
run is finite as long as wakeups that nobody asked for are, and what cannot go on has finished. -/
theorem tickets_and_program (h0 : 0 ≤ total.toInt) (hfit : total.toInt + Fintype.card C ≤ 2 ^ 31) :
    (∀ s : Tickets.State C, (Tickets.tickets C total).Reachable s → Tickets.TicketsOk total s) ∧
    (∀ s : State P C α, (demo total capacity items).Reachable s → Tickets.TicketsOk total s.tickets) ∧
    (0 < capacity → ∑ p, (items p).length = total.toInt →
      (∀ s : State P C α, (demo total capacity items).Reachable s → Stuck total capacity s → Finished total s) ∧
      ∀ (acts : List (Act P C)) (s : State P C α),
        (demo total capacity items).run (demo total capacity items).init acts = some s →
        acts.length ≤ 13 * total.toInt.toNat + 3 * Fintype.card C + 2 * acts.countP Act.isSpurious) := by
  refine ⟨fun s hs => (Tickets.inv_reachable h0 hfit hs).ok, fun s hs => ?_,
    fun hc hitems => ⟨fun s hs hstuck => ?_, ?_⟩⟩
  · exact (Tickets.inv_reachable h0 hfit (reachable_parts hs).2).ok
  · exact hstuck.finished hc hfit hitems hs
  · intro acts s hrun
    exact run_length hfit hitems hrun

end

/-- One item and two consumers: the second fails to get a ticket while the first waits for the item. -/
def oneItem : List (Act Unit Bool) :=
  [.consumer false, .consumer true, .consumer false, .consume false none, .consumer true,
    .produce () (some (.inr false)), .count (), .recheck (.inr false) none, .consumer false, .consumer false,
    .consumer true]

theorem tickets_and_program_oneItem :
    ∃ s, (demo 1 1 fun _ : Unit => [7]).run (demo 1 1 fun _ : Unit => [7]).init oneItem = some s ∧
      Tickets.TicketsOk 1 s.tickets ∧ Finished 1 s := by
  have hall := @tickets_and_program Unit Bool Nat _ _ _ _ 1 1 (fun _ => [7]) _ (by decide) (by decide)
  refine ⟨_, rfl, hall.2.1 _ (System.reachable_of_run oneItem .init rfl), ?_⟩
  refine (hall.2.2 (by decide) (by decide)).1 _ (System.reachable_of_run oneItem .init rfl) ?_
  intro act s' hs
  cases act with
  | produce p w => cases hs
  | count p => cases hs
  | consume c w => cases c <;> cases hs
  | consumer c => cases c <;> cases hs
  | recheck t w => rcases t with _ | _ | _ <;> cases hs
  | spurious t => rfl

end Playground.ProducerConsumer
