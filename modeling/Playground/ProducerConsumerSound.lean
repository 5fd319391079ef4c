import Playground.ProducerConsumer

/-!
# The producers and consumers finish

The tickets say how many calls of `consume` are started, and the items how
many of `produce`. So a consumer that waits on a buffer that is empty for good
would hold a ticket too many, and a producer that waits on one that is full
for good an item too many. A potential shows that a run is finite as long as
wakeups that nobody asked for are.
-/

namespace Playground.ProducerConsumer

open Monitor
open BoundedBuffer (Side)

section
variable {P C α : Type} [Fintype P] [Fintype C]

/-- Where the threads are in the two protocols, and what has been produced and consumed. -/
structure Inv (items : P → List α) (s : State P C α) : Prop where
  producers : ∀ p, s.buffer.calls (.inl p) = none ∨
    s.buffer.calls (.inl p) = some .producing ∧ s.busy p = true
  consumers : ∀ c, s.buffer.calls (.inr c) = none ∨
    s.buffer.calls (.inr c) = some .consuming ∧ s.tickets.pc c = .consuming
  items : s.buffer.entered .producing + ∑ p, (s.todo p).length = ∑ p, (items p).length
  consumes : s.buffer.entered .consuming = s.tickets.started
  counted : (s.buffer.entered .producing : Int) = s.producedCount.toInt + count id s.busy

variable [DecidableEq P] [DecidableEq C] {total : Int32} {capacity : Nat} {items : P → List α} {s s' : State P C α}
  {act : Act P C}

theorem inv_init : Inv items (demo (C := C) total capacity items).init where
  producers := fun _ => Or.inl rfl
  consumers := fun _ => Or.inl rfl
  items := by
    show ({} : BoundedBuffer.State (P ⊕ C) α).entered .producing + _ = _
    rw [BoundedBuffer.entered_init, Nat.zero_add]
    rfl
  consumes := BoundedBuffer.entered_init _
  counted := by
    have hbusy : count id (demo (C := C) total capacity items).init.busy = 0 := count_eq_zero.mpr fun _ => rfl
    show ((({} : BoundedBuffer.State (P ⊕ C) α).entered .producing : Nat) : Int) = _
    rw [BoundedBuffer.entered_init, hbusy]
    rfl

variable {b : BoundedBuffer.State (P ⊕ C) α}

theorem inv_produce {p : P} {item : α} {rest : List α} (h : Inv items s) (htodo : s.todo p = item :: rest)
    (hbusy : s.busy p = false) (hcall : s.buffer.calls (.inl p) = none)
    (hb : BoundedBuffer.Completes .producing s.buffer b (.inl p) ∨
      BoundedBuffer.Waits .producing s.buffer b (.inl p)) :
    Inv items
      { s with buffer := b, todo := Function.update s.todo p rest, busy := Function.update s.busy p true } where
  producers := by
    intro q
    by_cases hq : q = p
    · subst hq
      show _ ∨ _ ∧ Function.update s.busy q true q = true
      rw [Function.update_self]
      exact (BoundedBuffer.calls_self hb).imp_right fun hc => ⟨hc, rfl⟩
    · show b.calls (.inl q) = none ∨ b.calls (.inl q) = some .producing ∧ Function.update s.busy p true q = true
      rw [BoundedBuffer.calls_other hb (Sum.inl_injective.ne hq), Function.update_of_ne hq]
      exact h.producers q
  consumers := by
    intro c
    show b.calls (.inr c) = none ∨ b.calls (.inr c) = some .consuming ∧ _
    rw [BoundedBuffer.calls_other hb Sum.inr_ne_inl]
    exact h.consumers c
  items := by
    have hsum := sum_change (t := p) (f := fun q => (s.todo q).length)
      (g := fun q => (Function.update s.todo p rest q).length) fun q hq => by rw [Function.update_of_ne hq]
    have hitems := h.items
    have hent := BoundedBuffer.entered_of_call hb hcall .producing
    rw [Function.update_self, htodo, List.length_cons] at hsum
    rw [beq_self_eq_true, Bool.toNat_true] at hent
    show b.entered .producing + ∑ q, (Function.update s.todo p rest q).length = _
    omega
  consumes := (BoundedBuffer.entered_of_call hb hcall .consuming).trans h.consumes
  counted := by
    have hcount := count_update id s.busy p true
    have hcounted := h.counted
    have hent := BoundedBuffer.entered_of_call hb hcall .producing
    rw [beq_self_eq_true, Bool.toNat_true] at hent
    rw [hbusy, id, id, Bool.toNat_false, Bool.toNat_true] at hcount
    show (b.entered .producing : Int) = s.producedCount.toInt + count id (Function.update s.busy p true)
    omega

omit [DecidableEq C] in
theorem inv_count {p : P} (hsum : ∑ p, (items p).length < 2 ^ 31) (h : Inv items s) (hbusy : s.busy p = true)
    (hcall : s.buffer.calls (.inl p) = none) :
    Inv items { s with busy := Function.update s.busy p false, producedCount := s.producedCount + 1 } where
  producers := by
    intro q
    by_cases hq : q = p
    · exact Or.inl (hq ▸ hcall)
    · show _ ∨ _ ∧ Function.update s.busy p false q = true
      rw [Function.update_of_ne hq]
      exact h.producers q
  consumers := h.consumers
  items := h.items
  consumes := h.consumes
  counted := by
    have hcount := count_update id s.busy p false
    have hitems := h.items
    have hcounted := h.counted
    rw [hbusy, id, id, Bool.toNat_false, Bool.toNat_true] at hcount
    show (s.buffer.entered .producing : Int) =
      (s.producedCount + 1).toInt + count id (Function.update s.busy p false)
    rw [Tickets.toInt_succ (by omega)]
    omega

theorem inv_consume {c : C} {t : Tickets.State C} (h : Inv items s) (hp : s.tickets.pc c = .consume)
    (hb : BoundedBuffer.Completes .consuming s.buffer b (.inr c) ∨
      BoundedBuffer.Waits .consuming s.buffer b (.inr c))
    (ht : Tickets.step total s.tickets c = some t) : Inv items { s with buffer := b, tickets := t } := by
  have hcall : s.buffer.calls (.inr c) = none := by
    cases h.consumers c with
    | inl hc => exact hc
    | inr hc =>
      rw [hp] at hc
      cases hc.2
  have hmove := Tickets.start_step hp ht
  subst hmove
  exact {
    producers := by
      intro p
      show b.calls (.inl p) = none ∨ b.calls (.inl p) = some .producing ∧ _
      rw [BoundedBuffer.calls_other hb Sum.inl_ne_inr]
      exact h.producers p
    consumers := by
      intro d
      show _ ∨ _ ∧ Function.update s.tickets.pc c .consuming d = .consuming
      by_cases hd : d = c
      · subst hd
        rw [Function.update_self]
        exact (BoundedBuffer.calls_self hb).imp_right fun hc => ⟨hc, rfl⟩
      · show b.calls (.inr d) = none ∨ b.calls (.inr d) = some .consuming ∧ _
        rw [BoundedBuffer.calls_other hb (Sum.inr_injective.ne hd), Function.update_of_ne hd]
        exact h.consumers d
    items := by
      have hent : b.entered .producing = s.buffer.entered .producing :=
        BoundedBuffer.entered_of_call hb hcall .producing
      show b.entered .producing + _ = _
      rw [hent]
      exact h.items
    consumes := by
      have hent := BoundedBuffer.entered_of_call hb hcall .consuming
      rw [h.consumes] at hent
      exact hent
    counted := by
      have hent : b.entered .producing = s.buffer.entered .producing :=
        BoundedBuffer.entered_of_call hb hcall .producing
      show (b.entered .producing : Int) = _
      rw [hent]
      exact h.counted }

omit [DecidableEq P] in
theorem inv_consumer {c : C} {t : Tickets.State C} (h : Inv items s) (hp : s.tickets.pc c ≠ .consume)
    (hcall : s.tickets.pc c = .consuming → s.buffer.calls (.inr c) = none)
    (ht : Tickets.step total s.tickets c = some t) : Inv items { s with tickets := t } where
  producers := h.producers
  consumers := by
    intro d
    by_cases hd : d = c
    · subst hd
      cases h.consumers d with
      | inl hc => exact Or.inl hc
      | inr hc => exact Or.inl (hcall hc.2)
    · show _ ∨ _ ∧ t.pc d = .consuming
      rw [(Tickets.turn_step ht).others hd]
      exact h.consumers d
  items := h.items
  consumes := h.consumes.trans (Tickets.started_step hp ht).symm
  counted := h.counted

omit [DecidableEq P] [DecidableEq C] in
/-- A critical section that starts no call ends calls at most. -/
theorem inv_buffer (h : Inv items s) (hcalls : ∀ u, b.calls u = none ∨ b.calls u = s.buffer.calls u)
    (hent : ∀ side, b.entered side = s.buffer.entered side) : Inv items { s with buffer := b } where
  producers := by
    intro p
    cases hcalls (.inl p) with
    | inl hn => exact Or.inl hn
    | inr hs =>
      show b.calls (.inl p) = none ∨ b.calls (.inl p) = some .producing ∧ _
      rw [hs]
      exact h.producers p
  consumers := by
    intro c
    cases hcalls (.inr c) with
    | inl hn => exact Or.inl hn
    | inr hs =>
      show b.calls (.inr c) = none ∨ b.calls (.inr c) = some .consuming ∧ _
      rw [hs]
      exact h.consumers c
  items := by
    show b.entered .producing + _ = _
    rw [hent]
    exact h.items
  consumes := (hent .consuming).trans h.consumes
  counted := by
    show (b.entered .producing : Int) = _
    rw [hent]
    exact h.counted

theorem inv_recheck {u : P ⊕ C} {side : Side} (h : Inv items s) (hcall : s.buffer.calls u = some side)
    (hb : BoundedBuffer.Completes side s.buffer b u ∨ BoundedBuffer.Waits side s.buffer b u) :
    Inv items { s with buffer := b } := by
  refine inv_buffer h (fun v => ?_) (BoundedBuffer.entered_of_recheck hb hcall)
  by_cases hv : v = u
  · subst hv
    rw [hcall]
    exact BoundedBuffer.calls_self hb
  · exact Or.inr (BoundedBuffer.calls_other hb hv)

theorem inv_spurious {u : P ⊕ C} (h : Inv items s)
    (hb : BoundedBuffer.step capacity s.buffer (.spurious u) = some b) :
    Inv items { s with buffer := b } := by
  obtain ⟨hcalls, hcompleted, _⟩ := BoundedBuffer.spurious_step hb
  refine inv_buffer h (fun v => Or.inr (congrFun hcalls v)) fun side => ?_
  rw [BoundedBuffer.State.entered, hcalls, hcompleted]
  rfl

theorem inv_step (hsum : ∑ p, (items p).length < 2 ^ 31) (h : Inv items s)
    (hs : step total capacity s act = some s') :
    Inv items s' := by
  cases turn_step hs with
  | produce htodo hbusy hb =>
    obtain ⟨hidle, hb⟩ := BoundedBuffer.produce_step hb
    exact inv_produce h htodo hbusy (BoundedBuffer.calls_of_idle hidle) hb
  | count hbusy hcall => exact inv_count hsum h hbusy hcall
  | consume hp hb ht => exact inv_consume h hp (BoundedBuffer.consume_step hb).2 ht
  | consumer hp hcall ht => exact inv_consumer h hp hcall ht
  | recheck hb =>
    obtain ⟨side, hcall, _, hb⟩ := BoundedBuffer.recheck_step hb
    exact inv_recheck h hcall hb
  | spurious hb => exact inv_spurious h hb

theorem inv_reachable (hsum : ∑ p, (items p).length < 2 ^ 31) (h : (demo total capacity items).Reachable s) :
    Inv items s :=
  h.inv inv_init fun _ _ _ hi hs => inv_step hsum hi hs

/-! ## Nobody waits for ever -/

/-- All threads have returned, and every item has been through the buffer. -/
structure Finished (total : Int32) (s : State P C α) : Prop where
  consumers : ∀ c, s.tickets.pc c = .exited
  producers : ∀ p, s.todo p = [] ∧ s.busy p = false
  empty : s.buffer.buffer = []
  consumed : s.buffer.consumed = s.buffer.produced
  length : (s.buffer.consumed.length : Int) = total.toInt
  producedCount : s.producedCount = total
  consumedCount : s.tickets.consumedCount = total

/-- Nothing but wakeups that nobody asked for can happen. -/
def Stuck (total : Int32) (capacity : Nat) (s : State P C α) : Prop :=
  ∀ act s', step total capacity s act = some s' → act.isSpurious = true

theorem Stuck.not_woken (h : Stuck total capacity s) (u : P ⊕ C) : (s.buffer.pc u).isWoken = false := by
  by_contra hw
  obtain ⟨w, b, hb⟩ := BoundedBuffer.recheck_enabled capacity (Bool.eq_true_of_not_eq_false hw)
  have hs := h (.recheck u w) { s with buffer := b } (by simp only [step, hb]; rfl)
  cases hs

theorem Stuck.producer (h : Stuck total capacity s) (hi : Inv items s) (p : P) :
    s.todo p = [] ∧ s.busy p = false ∨ s.buffer.calls (.inl p) = some .producing ∧
      (s.buffer.pc (.inl p)).waitsNotFull = true := by
  cases hi.producers p with
  | inr hc =>
    cases BoundedBuffer.waits_of_call hc.1 (h.not_woken _) with
    | inl hw => exact Or.inr ⟨hc.1, hw.2⟩
    | inr hw => cases hw.1
  | inl hc =>
    left
    have hbusy : s.busy p = false := by
      by_contra hbusy
      have hs := h (.count p) _ (by rw [step, if_pos ⟨Bool.eq_true_of_not_eq_false hbusy, hc⟩])
      cases hs
    refine ⟨?_, hbusy⟩
    by_contra htodo
    obtain ⟨item, rest, htodo⟩ := List.exists_cons_of_ne_nil htodo
    obtain ⟨w, b, hb⟩ := BoundedBuffer.produce_enabled capacity s.buffer (.inl p) item
    have hb' : BoundedBuffer.step capacity s.buffer (.produce (.inl p) item w) = some b := by
      simp only [BoundedBuffer.step, BoundedBuffer.idle_of_call hc, hb]
    have hs := h (.produce p w) _ (by simp only [step, htodo, hbusy, hb']; rfl)
    cases hs

theorem Stuck.consumer (h : Stuck total capacity s) (hi : Inv items s) (c : C) :
    s.tickets.pc c = .exited ∨
      s.buffer.calls (.inr c) = some .consuming ∧ (s.buffer.pc (.inr c)).waitsNotEmpty = true := by
  cases hi.consumers c with
  | inr hc =>
    cases BoundedBuffer.waits_of_call hc.1 (h.not_woken _) with
    | inl hw => cases hw.1
    | inr hw => exact Or.inr ⟨hc.1, hw.2⟩
  | inl hc =>
    left
    by_contra hp
    obtain ⟨t, ht⟩ := Tickets.enabled total hp
    by_cases hcons : s.tickets.pc c = .consume
    · obtain ⟨w, b, hb⟩ := BoundedBuffer.consume_enabled s.buffer (.inr c)
      have hb' : BoundedBuffer.step capacity s.buffer (.consume (.inr c) w) = some b := by
        simp only [BoundedBuffer.step, BoundedBuffer.idle_of_call hc, hb]
      have hs := h (.consume c w) { s with buffer := b, tickets := t } (by
        rw [step, if_pos hcons, hb', Option.bind_some, ht]
        rfl)
      cases hs
    · have hsteps := steps_iff.mpr ⟨hcons, fun _ => hc⟩
      have hs := h (.consumer c) { s with tickets := t } (by
        rw [step, if_pos hsteps, ht]
        rfl)
      cases hs

theorem Stuck.count_zero (h : Stuck total capacity s) {p : BoundedBuffer.Pc α → Bool}
    (hp : ∀ x, p x = true → x.isWoken = true) : count p s.buffer.pc = 0 := by
  refine count_eq_zero.mpr fun u => ?_
  by_contra hu
  have hw := hp _ (Bool.eq_true_of_not_eq_false hu)
  rw [h.not_woken u] at hw
  cases hw

theorem Stuck.produced (h : Stuck total capacity s) (hi : Inv items s)
    (hnone : ∀ p, (s.buffer.pc (.inl p)).waitsNotFull = false) :
    (∀ p, s.todo p = [] ∧ s.busy p = false) ∧ s.buffer.produced.length = ∑ p, (items p).length ∧
      (s.producedCount.toInt : Int) = ∑ p, (items p).length := by
  have hdone : ∀ p, s.todo p = [] ∧ s.busy p = false := by
    intro p
    refine (h.producer hi p).resolve_right fun hw => ?_
    rw [hnone p] at hw
    cases hw.2
  have hcalls : count (· == some Side.producing) s.buffer.calls = 0 := by
    refine count_eq_zero.mpr fun u => ?_
    cases u with
    | inl p =>
      cases hi.producers p with
      | inl hc => rw [hc]; rfl
      | inr hc =>
        rw [(hdone p).2] at hc
        cases hc.2
    | inr c =>
      cases hi.consumers c with
      | inl hc => rw [hc]; rfl
      | inr hc => rw [hc.1]; rfl
  have hentered : s.buffer.entered .producing = s.buffer.produced.length := by
    rw [BoundedBuffer.State.entered, hcalls]
    rfl
  have htodo : ∑ p, (s.todo p).length = 0 := Finset.sum_eq_zero fun p _ => by rw [(hdone p).1]; rfl
  have hbusy : count id s.busy = 0 := count_eq_zero.mpr fun p => (hdone p).2
  have hitems := hi.items
  have hcounted := hi.counted
  rw [hentered, htodo] at hitems
  rw [hentered, hbusy] at hcounted
  exact ⟨hdone, by omega, by omega⟩

/-- A consumer that waits for ever would hold a ticket too many. -/
theorem Stuck.no_consumer_waits (h : Stuck total capacity s) (hc : 0 < capacity) (hi : Inv items s)
    (hb : BoundedBuffer.Inv capacity s.buffer) (hstarted : (s.tickets.started : Int) ≤ total.toInt)
    (hitems : ∑ p, (items p).length = total.toInt) (c : C) : (s.buffer.pc (.inr c)).waitsNotEmpty = false := by
  by_contra hne
  have hw := Bool.eq_true_of_not_eq_false hne
  have hnone : ∀ p, (s.buffer.pc (.inl p)).waitsNotFull = false := by
    intro p
    by_contra hp
    obtain ⟨u, hu⟩ := hb.live hc ⟨_, Bool.eq_true_of_not_eq_false hp⟩ ⟨_, hw⟩
    have hwoken := h.not_woken u
    rw [BoundedBuffer.Pc.isWoken, Bool.or_eq_false_iff] at hwoken
    cases hu with
    | inl hu => rw [hu] at hwoken; cases hwoken.1
    | inr hu => rw [hu] at hwoken; cases hwoken.2
  have hempty := hb.notEmpty (count_pos.mpr ⟨_, hw⟩)
  rw [h.count_zero fun x hx => by rw [BoundedBuffer.Pc.isWoken, hx, Bool.or_true]] at hempty
  obtain ⟨_, hproduced, _⟩ := h.produced hi hnone
  have hcall : s.buffer.calls (.inr c) = some .consuming := by
    cases hi.consumers c with
    | inl hn =>
      rw [BoundedBuffer.idle_of_call hn] at hw
      cases hw
    | inr hn => exact hn.1
  have hpos : 0 < count (· == some Side.consuming) s.buffer.calls := count_pos.mpr ⟨.inr c, by rw [hcall]; rfl⟩
  have hentered : s.buffer.consumed.length + count (· == some Side.consuming) s.buffer.calls = s.tickets.started :=
    hi.consumes
  have hfifo := congrArg List.length hb.fifo
  rw [List.length_append] at hfifo
  omega

omit [DecidableEq P] [DecidableEq C] in
theorem consumed_of_exited (hi : Inv items s) (hall : ∀ c, s.tickets.pc c = .exited) :
    s.buffer.consumed.length = s.tickets.started := by
  have hcalls : count (· == some Side.consuming) s.buffer.calls = 0 := by
    refine count_eq_zero.mpr fun u => ?_
    cases u with
    | inl p =>
      cases hi.producers p with
      | inl hc => rw [hc]; rfl
      | inr hc => rw [hc.1]; rfl
    | inr c =>
      cases hi.consumers c with
      | inl hc => rw [hc]; rfl
      | inr hc =>
        rw [hall c] at hc
        cases hc.2
  have hentered : s.buffer.consumed.length + count (· == some Side.consuming) s.buffer.calls = s.tickets.started :=
    hi.consumes
  rwa [hcalls] at hentered

/-- **What cannot go on has finished**: with `total` items and a buffer of some capacity, nobody is
left waiting and nothing is left behind. -/
theorem Stuck.finished [Nonempty C] (h : Stuck total capacity s) (hc : 0 < capacity)
    (hfit : total.toInt + Fintype.card C ≤ 2 ^ 31) (hitems : ∑ p, (items p).length = total.toInt)
    (hr : (demo total capacity items).Reachable s) : Finished total s := by
  have hlt := total.toInt_lt
  have hb := BoundedBuffer.inv_reachable (reachable_parts hr).1
  have ht := Tickets.inv_reachable (by omega) hfit (reachable_parts hr).2
  have hi := inv_reachable (by omega) hr
  have hall : ∀ c, s.tickets.pc c = .exited := by
    intro c
    refine (h.consumer hi c).resolve_right fun hw => ?_
    rw [h.no_consumer_waits hc hi hb ht.ok.started hitems c] at hw
    cases hw.2
  obtain ⟨hstarted, _, hcount⟩ := ht.exited hall
  have hconsumed := consumed_of_exited hi hall
  have hfifo := congrArg List.length hb.fifo
  rw [List.length_append] at hfifo
  have hnone : ∀ p, (s.buffer.pc (.inl p)).waitsNotFull = false := by
    intro p
    by_contra hp
    have hcall : s.buffer.calls (.inl p) = some .producing := by
      cases hi.producers p with
      | inl hn =>
        rw [BoundedBuffer.idle_of_call hn] at hp
        exact absurd rfl hp
      | inr hn => exact hn.1
    have hpos : 0 < count (· == some Side.producing) s.buffer.calls := count_pos.mpr ⟨.inl p, by rw [hcall]; rfl⟩
    have hentered : s.buffer.produced.length + count (· == some Side.producing) s.buffer.calls +
        ∑ p, (s.todo p).length = ∑ p, (items p).length := hi.items
    omega
  obtain ⟨hdone, hproduced, hcounted⟩ := h.produced hi hnone
  have hempty : s.buffer.buffer = [] := List.length_eq_zero_iff.mp (by omega)
  exact {
    consumers := hall
    producers := hdone
    empty := hempty
    consumed := by
      have hall := hb.fifo
      rw [hempty, List.append_nil] at hall
      exact hall.symm
    length := by omega
    producedCount := Int32.toInt_inj.mp (by omega)
    consumedCount := hcount }

end

end Playground.ProducerConsumer
