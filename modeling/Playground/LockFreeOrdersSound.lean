import Playground.LockFreeOrders
import Playground.LockFreeQueueSound

/-!
# The lock-free queue does not race

The producer makes one access to the buffer for each push and the consumer one
for each pop, so a message of `tail_` or `head_` says by its view which push or
pop published it (`Published`). An old index only makes a side believe that
there is less room, or less to read, than there is. The invariant (`Inv`) keeps
what each side knows and which accesses the slots have seen.
-/

namespace Playground.LockFreeOrders

open WeakMemory LockFreeQueue

section
variable {α : Type} {capacity : Nat} {s s' : State α}

/-- The accesses of the producer to the buffer. -/
def State.writes (s : State α) : Nat := s.memory.view .producer (.access .producer)

def State.reads (s : State α) : Nat := s.memory.view .consumer (.access .consumer)

/-- Any head that the producer may load leaves room for the item number `n`. -/
def Room (capacity : Nat) (s : State α) (n : Nat) : Prop :=
  s.memory.AtLeast .producer .head .consumer (n + 1 - capacity)

/-- Any tail that the consumer may load is that of `n` pushes or more. -/
def Stock (s : State α) (n : Nat) : Prop := s.memory.AtLeast .consumer .tail .producer n

def ProducerOk (capacity : Nat) (s : State α) : Prop :=
  match s.producer with
  | .idle => s.writes = s.pushed.length ∧ Room capacity s s.pushed.length
  | .loadedTail _ tail nextTail =>
    s.writes = s.pushed.length ∧ Room capacity s s.pushed.length ∧ tail = s.pushed.length % capacity ∧
      nextTail = (s.pushed.length + 1) % capacity
  | .loadedHead _ tail nextTail =>
    s.writes = s.pushed.length ∧ Room capacity s (s.pushed.length + 1) ∧ tail = s.pushed.length % capacity ∧
      nextTail = (s.pushed.length + 1) % capacity ∧ s.pushed.length + 2 ≤ s.popped.length + capacity ∧
      s.pushed.length + 2 ≤ s.memory.view .producer (.access .consumer) + capacity
  | .written item nextTail =>
    s.writes = s.pushed.length + 1 ∧ Room capacity s (s.pushed.length + 1) ∧
      nextTail = (s.pushed.length + 1) % capacity ∧ s.pushed.length + 2 ≤ s.popped.length + capacity ∧
      (s.buffer (s.pushed.length % capacity)).value = item

def ConsumerOk (capacity : Nat) (s : State α) : Prop :=
  match s.consumer with
  | .idle => s.reads = s.popped.length ∧ Stock s s.popped.length
  | .loadedHead head => s.reads = s.popped.length ∧ Stock s s.popped.length ∧ head = s.popped.length % capacity
  | .loadedTail head =>
    s.reads = s.popped.length ∧ Stock s (s.popped.length + 1) ∧ head = s.popped.length % capacity ∧
      s.popped.length < s.pushed.length ∧ s.popped.length < s.memory.view .consumer (.access .producer)
  | .read head item =>
    s.reads = s.popped.length + 1 ∧ Stock s (s.popped.length + 1) ∧ head = s.popped.length % capacity ∧
      s.popped.length < s.pushed.length ∧ s.pushed[s.popped.length]? = some item

/-- The producer only writes, and the consumer only reads: the last read is that of an item whose slot this is. -/
structure SlotOk (capacity : Nat) (s : State α) (i : Nat) : Prop where
  written_le : (s.buffer i).written .producer ≤ s.writes
  written_consumer : (s.buffer i).written .consumer = 0
  read_producer : (s.buffer i).read .producer = 0
  read_consumer : (s.buffer i).read .consumer = 0 ∨
    ∃ j < s.reads, j % capacity = i ∧ (s.buffer i).read .consumer = j + 1

structure Inv (capacity : Nat) (s : State α) : Prop where
  tail : s.memory.Published .tail .producer (· % capacity) s.pushed.length
  head : s.memory.Published .head .consumer (· % capacity) s.popped.length
  clock : ∀ t, s.memory.Bound (.access t) (s.memory.view t (.access t))
  le : s.popped.length ≤ s.pushed.length
  lt : s.pushed.length < s.popped.length + capacity
  taken : s.popped = s.pushed.take s.popped.length
  slots : ∀ i, s.popped.length ≤ i → i < s.pushed.length → s.pushed[i]? = some (s.buffer (i % capacity)).value
  written : ∀ i, s.popped.length ≤ i → i < s.writes → (s.buffer (i % capacity)).written .producer = i + 1
  slotOk : ∀ i, SlotOk capacity s i
  producer : ProducerOk capacity s
  consumer : ConsumerOk capacity s

theorem inv_init (hc : ValidCapacity capacity) (garbage : Nat → α) :
    Inv capacity (queue capacity garbage).init where
  tail := Memory.Published.start _ (Nat.zero_mod _)
  head := Memory.Published.start _ (Nat.zero_mod _)
  clock t := Memory.Bound.start _
  le := Nat.le_refl _
  lt := by
    have : capacity ≠ 0 := hc.1
    show 0 < 0 + capacity
    omega
  taken := rfl
  slots := by intro i _ h; exact absurd h (Nat.not_lt_zero i)
  written := by intro i _ h; exact absurd h (Nat.not_lt_zero i)
  slotOk i := ⟨Nat.le_refl 0, rfl, rfl, .inl rfl⟩
  producer := by
    have : capacity ≠ 0 := hc.1
    refine ⟨rfl, fun k msg _ _ => ?_⟩
    show 0 + 1 - capacity ≤ _
    omega
  consumer := ⟨rfl, fun k msg _ _ => Nat.zero_le _⟩

/-! ## What one side keeps of the other -/

theorem ProducerOk.frame (h : ProducerOk capacity s) (hlt : s.pushed.length < s.popped.length + capacity)
    (hp : s'.producer = s.producer) (hpushed : s'.pushed = s.pushed) (hpopped : s.popped.length ≤ s'.popped.length)
    (hv : s'.memory.view .producer = s.memory.view .producer)
    (hval : ∀ i, (s'.buffer i).value = (s.buffer i).value)
    (hat : ∀ b ≤ s.popped.length, s.memory.AtLeast .producer .head .consumer b →
      s'.memory.AtLeast .producer .head .consumer b) : ProducerOk capacity s' := by
  unfold ProducerOk at h ⊢
  simp only [hp, hpushed, State.writes, hv, hval, Room] at h ⊢
  cases hq : s.producer with
  | idle =>
    rw [hq] at h
    exact ⟨h.1, hat _ (by omega) h.2⟩
  | loadedTail x tail nextTail =>
    rw [hq] at h
    exact ⟨h.1, hat _ (by omega) h.2.1, h.2.2⟩
  | loadedHead x tail nextTail =>
    rw [hq] at h
    obtain ⟨hw, hr, ht, hn, hroom, hknown⟩ := h
    exact ⟨hw, hat _ (by omega) hr, ht, hn, by omega, hknown⟩
  | written x nextTail =>
    rw [hq] at h
    obtain ⟨hw, hr, hn, hroom, hx⟩ := h
    exact ⟨hw, hat _ (by omega) hr, hn, by omega, hx⟩

theorem ConsumerOk.frame (h : ConsumerOk capacity s) (hle : s.popped.length ≤ s.pushed.length)
    (hc : s'.consumer = s.consumer) (hpopped : s'.popped = s.popped) (hpushed : s.pushed <+: s'.pushed)
    (hv : s'.memory.view .consumer = s.memory.view .consumer)
    (hat : ∀ b ≤ s.pushed.length, s.memory.AtLeast .consumer .tail .producer b →
      s'.memory.AtLeast .consumer .tail .producer b) : ConsumerOk capacity s' := by
  have hlen := hpushed.length_le
  unfold ConsumerOk at h ⊢
  simp only [hc, hpopped, State.reads, hv, Stock] at h ⊢
  cases hq : s.consumer with
  | idle =>
    rw [hq] at h
    exact ⟨h.1, hat _ hle h.2⟩
  | loadedHead head =>
    rw [hq] at h
    exact ⟨h.1, hat _ hle h.2.1, h.2.2⟩
  | loadedTail head =>
    rw [hq] at h
    obtain ⟨hr, hs, hh, hlt, hknown⟩ := h
    exact ⟨hr, hat _ hlt hs, hh, by omega, hknown⟩
  | read head x =>
    rw [hq] at h
    obtain ⟨hr, hs, hh, hlt, hx⟩ := h
    obtain ⟨more, hmore⟩ := hpushed
    exact ⟨hr, hat _ hlt hs, hh, by omega, by rw [← hmore, List.getElem?_append_left hlt, hx]⟩

theorem SlotOk.frame {i : Nat} (h : SlotOk capacity s i) (hb : s'.buffer i = s.buffer i) (hw : s.writes ≤ s'.writes)
    (hr : s.reads ≤ s'.reads) : SlotOk capacity s' i where
  written_le := by rw [hb]; exact le_trans h.written_le hw
  written_consumer := by rw [hb]; exact h.written_consumer
  read_producer := by rw [hb]; exact h.read_producer
  read_consumer := by
    rw [hb]
    exact h.read_consumer.imp_right fun ⟨j, hj, hi, hread⟩ => ⟨j, lt_of_lt_of_le hj hr, hi, hread⟩

/-! ## Loads -/

variable {memory : Memory Side Index fun _ => Nat} {x : Index} {o : Order} {k a : Nat}

theorem Inv.push_load (h : Inv capacity s) (hm : s.memory.load .producer x o k = some (a, memory))
    (hmem : s'.memory = memory) (hbuf : s'.buffer = s.buffer) (hc : s'.consumer = s.consumer)
    (hpushed : s'.pushed = s.pushed) (hpopped : s'.popped = s.popped) (hok : ProducerOk capacity s') :
    Inv capacity s' := by
  have hclock := fun t => (h.clock t).load_clock hm
  have hw : s'.writes = s.writes := by rw [State.writes, hmem, (hclock .producer).1, State.writes]
  have hr : s'.reads = s.reads := by rw [State.reads, hmem, (hclock .consumer).1, State.reads]
  refine ⟨?_, ?_, ?_, ?_, ?_, ?_, ?_, ?_, fun i =>
    (h.slotOk i).frame (by rw [hbuf]) (le_of_eq hw.symm) (le_of_eq hr.symm), hok, ?_⟩
  · rw [hmem, hpushed]
    exact h.tail.load_keep hm
  · rw [hmem, hpopped]
    exact h.head.load_keep hm
  · intro t
    rw [hmem]
    exact (hclock t).2
  · rw [hpopped, hpushed]
    exact h.le
  · rw [hpopped, hpushed]
    exact h.lt
  · rw [hpopped, hpushed]
    exact h.taken
  · rw [hpopped, hpushed, hbuf]
    exact h.slots
  · rw [hpopped, hw, hbuf]
    exact h.written
  · refine h.consumer.frame h.le hc hpopped (by rw [hpushed]) ?_ fun b _ hb => ?_
    · rw [hmem, Memory.load_view_of_ne hm (by decide)]
    · rw [hmem]
      exact hb.keep (by rw [Memory.load_msgs hm]) (Memory.load_le hm _)

theorem Inv.pop_load (h : Inv capacity s) (hm : s.memory.load .consumer x o k = some (a, memory))
    (hmem : s'.memory = memory) (hbuf : s'.buffer = s.buffer) (hp : s'.producer = s.producer)
    (hpushed : s'.pushed = s.pushed) (hpopped : s'.popped = s.popped) (hok : ConsumerOk capacity s') :
    Inv capacity s' := by
  have hclock := fun t => (h.clock t).load_clock hm
  have hw : s'.writes = s.writes := by rw [State.writes, hmem, (hclock .producer).1, State.writes]
  have hr : s'.reads = s.reads := by rw [State.reads, hmem, (hclock .consumer).1, State.reads]
  refine ⟨?_, ?_, ?_, ?_, ?_, ?_, ?_, ?_, fun i =>
    (h.slotOk i).frame (by rw [hbuf]) (le_of_eq hw.symm) (le_of_eq hr.symm), ?_, hok⟩
  · rw [hmem, hpushed]
    exact h.tail.load_keep hm
  · rw [hmem, hpopped]
    exact h.head.load_keep hm
  · intro t
    rw [hmem]
    exact (hclock t).2
  · rw [hpopped, hpushed]
    exact h.le
  · rw [hpopped, hpushed]
    exact h.lt
  · rw [hpopped, hpushed]
    exact h.taken
  · rw [hpopped, hpushed, hbuf]
    exact h.slots
  · rw [hpopped, hw, hbuf]
    exact h.written
  · refine h.producer.frame h.lt hp hpushed (by rw [hpopped]) ?_ (fun i => by rw [hbuf]) fun b _ hb => ?_
    · rw [hmem, Memory.load_view_of_ne hm (by decide)]
    · rw [hmem]
      exact hb.keep (by rw [Memory.load_msgs hm]) (Memory.load_le hm _)

/-- What the producer knows of its own side when it has loaded. -/
theorem Inv.producer_known (h : Inv capacity s) (hm : s.memory.load .producer x o k = some (a, memory)) {n : Nat}
    (hr : Room capacity s n) :
    memory.view .producer (.access .producer) = s.writes ∧
      memory.AtLeast .producer .head .consumer (n + 1 - capacity) :=
  ⟨((h.clock .producer).load_clock hm).1, hr.keep (by rw [Memory.load_msgs hm]) (Memory.load_le hm _)⟩

theorem Inv.pushLoadTail (hc : ValidCapacity capacity) {item : α} (h : Inv capacity s) (hp : s.producer = .idle)
    (hm : s.memory.load .producer .tail .relaxed k = some (a, memory)) :
    Inv capacity { s with memory, producer := .loadedTail item a (next capacity a) } := by
  have ha : a = s.pushed.length % capacity := h.tail.sole.load_self hm
  have hok := h.producer
  simp only [ProducerOk, hp] at hok
  obtain ⟨hw, hr⟩ := h.producer_known hm hok.2
  refine h.push_load hm rfl rfl rfl rfl rfl ?_
  simp only [ProducerOk]
  exact ⟨hw.trans hok.1, hr, ha, by rw [next_eq_mod hc, ha, Nat.mod_add_mod]; rfl⟩

theorem pushed_full {item : α} :
    State.pushed { s with memory, producer := .idle, pushes := s.pushes ++ [(item, false)] } =
    s.pushed := by simp [State.pushed]

theorem Inv.pushFull {item : α} {tail : Nat} (h : Inv capacity s) (hp : s.producer = .loadedTail item tail a)
    (hm : s.memory.load .producer .head .acquire k = some (a, memory)) :
    Inv capacity { s with memory, producer := .idle, pushes := s.pushes ++ [(item, false)] } := by
  have hok := h.producer
  simp only [ProducerOk, hp] at hok
  obtain ⟨hw, hr⟩ := h.producer_known hm hok.2.1
  refine h.push_load hm rfl rfl rfl pushed_full rfl ?_
  simp only [ProducerOk, Room, pushed_full]
  exact ⟨hw.trans hok.1, hr⟩

theorem Inv.pushRoom {item : α} {tail nextTail : Nat} (h : Inv capacity s)
    (hp : s.producer = .loadedTail item tail nextTail)
    (hm : s.memory.load .producer .head .acquire k = some (a, memory)) (hf : nextTail ≠ a) :
    Inv capacity { s with memory, producer := .loadedHead item tail nextTail } := by
  have hok := h.producer
  simp only [ProducerOk, hp] at hok
  obtain ⟨hw, hr, ht, hn⟩ := hok
  obtain ⟨hw', _⟩ := h.producer_known hm hr
  obtain ⟨j, rfl, hlo, hhi, hknown, hat⟩ := h.head.load hr hm rfl
  have hle := h.le
  have hlt := h.lt
  -- The slot after the last one is that of the head only if the queue is full.
  have hne : s.pushed.length + 1 ≠ j + capacity := by
    intro he
    rw [hn, he, Nat.add_mod_right] at hf
    exact hf rfl
  refine h.push_load hm rfl rfl rfl rfl rfl ?_
  simp only [ProducerOk]
  refine ⟨hw'.trans hw, hat.mono ?_, ht, hn, ?_, ?_⟩
  · show s.pushed.length + 1 + 1 - capacity ≤ j
    omega
  · show s.pushed.length + 2 ≤ s.popped.length + capacity
    omega
  · show s.pushed.length + 2 ≤ memory.view .producer (.access .consumer) + capacity
    omega

theorem Inv.consumer_known (h : Inv capacity s) (hm : s.memory.load .consumer x o k = some (a, memory)) {n : Nat}
    (hs : Stock s n) :
    memory.view .consumer (.access .consumer) = s.reads ∧ memory.AtLeast .consumer .tail .producer n :=
  ⟨((h.clock .consumer).load_clock hm).1, hs.keep (by rw [Memory.load_msgs hm]) (Memory.load_le hm _)⟩

theorem Inv.popLoadHead (h : Inv capacity s) (hc : s.consumer = .idle)
    (hm : s.memory.load .consumer .head .relaxed k = some (a, memory)) :
    Inv capacity { s with memory, consumer := .loadedHead a } := by
  have ha : a = s.popped.length % capacity := h.head.sole.load_self hm
  have hok := h.consumer
  simp only [ConsumerOk, hc] at hok
  obtain ⟨hr, hs⟩ := h.consumer_known hm hok.2
  refine h.pop_load hm rfl rfl rfl rfl rfl ?_
  simp only [ConsumerOk]
  exact ⟨hr.trans hok.1, hs, ha⟩

theorem popped_empty : State.popped { s with memory, consumer := .idle, pops := s.pops ++ [none] } = s.popped := by
  simp [State.popped]

theorem Inv.popEmpty (h : Inv capacity s) (hc : s.consumer = .loadedHead a)
    (hm : s.memory.load .consumer .tail .acquire k = some (a, memory)) :
    Inv capacity { s with memory, consumer := .idle, pops := s.pops ++ [none] } := by
  have hok := h.consumer
  simp only [ConsumerOk, hc] at hok
  obtain ⟨hr, hs⟩ := h.consumer_known hm hok.2.1
  refine h.pop_load hm rfl rfl rfl rfl popped_empty ?_
  simp only [ConsumerOk, Stock, popped_empty]
  exact ⟨hr.trans hok.1, hs⟩

theorem Inv.popSome {head : Nat} (h : Inv capacity s) (hc : s.consumer = .loadedHead head)
    (hm : s.memory.load .consumer .tail .acquire k = some (a, memory)) (he : head ≠ a) :
    Inv capacity { s with memory, consumer := .loadedTail head } := by
  have hok := h.consumer
  simp only [ConsumerOk, hc] at hok
  obtain ⟨hr, hs, hh⟩ := hok
  obtain ⟨hr', _⟩ := h.consumer_known hm hs
  obtain ⟨j, rfl, hlo, hhi, hknown, hat⟩ := h.tail.load hs hm rfl
  have hne : s.popped.length ≠ j := by
    rintro rfl
    exact he hh
  refine h.pop_load hm rfl rfl rfl rfl rfl ?_
  simp only [ConsumerOk]
  refine ⟨hr'.trans hr, hat.mono ?_, hh, ?_, ?_⟩
  · show s.popped.length + 1 ≤ j
    omega
  · show s.popped.length < s.pushed.length
    omega
  · show s.popped.length < memory.view .consumer (.access .producer)
    omega

/-! ## Accesses to the buffer -/

theorem Inv.slot_ne (h : Inv capacity s) {i : Nat} (hi : s.popped.length ≤ i) (hi' : i < s.pushed.length) :
    i % capacity ≠ s.pushed.length % capacity := by
  intro he
  have hlt := h.lt
  have := Ring.mod_inj (Nat.le_of_lt hi') (by omega) he
  omega

theorem Inv.pushWrite {item : α} {tail nextTail : Nat} (h : Inv capacity s)
    (hp : s.producer = .loadedHead item tail nextTail) :
    Inv capacity { s.setSlot .producer tail ((s.buffer tail).writeBy s.memory .producer item) with
      producer := .written item nextTail } := by
  have hok := h.producer
  simp only [ProducerOk, hp] at hok
  obtain ⟨hw, hr, rfl, hn, hroom, _⟩ := hok
  have hw' : (s.memory.tick .producer).view .producer (.access .producer) = s.pushed.length + 1 :=
    Memory.tick_view_self.trans (congrArg (· + 1) hw)
  have hconsumer : (s.memory.tick .producer).view .consumer = s.memory.view .consumer :=
    Memory.tick_view_of_ne (by decide)
  have hkeep : ∀ {u x b}, s.memory.AtLeast u x .consumer b → (s.memory.tick .producer).AtLeast u x .consumer b :=
    fun hb => hb.keep rfl (Memory.tick_le _)
  refine ⟨h.tail.tick _, h.head.tick _, Memory.Bound.tick_clock h.clock _, h.le, h.lt, h.taken, fun i hi hi' => ?_,
    fun i hi hi' => ?_, fun i => ?_, ?_, ?_⟩
  · simp only [State.setSlot, Function.update_of_ne (h.slot_ne hi hi')]
    exact h.slots i hi hi'
  · simp only [State.setSlot, State.writes, hw'] at hi' ⊢
    rcases Nat.lt_succ_iff_lt_or_eq.mp hi' with hlt | rfl
    · rw [Function.update_of_ne (h.slot_ne hi hlt)]
      exact h.written i hi (by rw [hw]; exact hlt)
    · rw [Function.update_self]
      simp only [Cell.writeBy, Function.update_self]
      rw [← State.writes, hw]
  · by_cases hi : i = s.pushed.length % capacity
    · subst hi
      have hold := h.slotOk (s.pushed.length % capacity)
      refine ⟨?_, ?_, ?_, ?_⟩
      · simp only [State.setSlot, State.writes, Function.update_self, hw', Cell.writeBy]
        exact le_of_eq (congrArg (· + 1) hw)
      · simpa [State.setSlot, Cell.writeBy] using hold.written_consumer
      · simpa [State.setSlot, Cell.writeBy] using hold.read_producer
      · simp only [State.setSlot, State.reads, hconsumer, Function.update_self, Cell.writeBy]
        exact hold.read_consumer
    · refine (h.slotOk i).frame (Function.update_of_ne hi ..) ?_ (le_of_eq ?_)
      · simp only [State.setSlot]
        rw [State.writes, State.writes, hw', ← State.writes, hw]
        exact Nat.le_succ _
      · simp only [State.setSlot, State.reads, hconsumer]
  · simp only [ProducerOk]
    refine ⟨hw', hkeep hr, hn, hroom, ?_⟩
    show (Function.update s.buffer (s.pushed.length % capacity) _ (s.pushed.length % capacity)).value = item
    rw [Function.update_self]
  · exact h.consumer.frame h.le rfl rfl (List.prefix_refl _) hconsumer fun b _ hb => hb.keep rfl (Memory.tick_le _)

theorem Inv.popRead {head : Nat} (h : Inv capacity s) (hc : s.consumer = .loadedTail head) :
    Inv capacity { s.setSlot .consumer head ((s.buffer head).readBy s.memory .consumer) with
      consumer := .read head (s.buffer head).value } := by
  have hok := h.consumer
  simp only [ConsumerOk, hc] at hok
  obtain ⟨hr, hs, rfl, hlt, _⟩ := hok
  have hr' : (s.memory.tick .consumer).view .consumer (.access .consumer) = s.popped.length + 1 :=
    Memory.tick_view_self.trans (congrArg (· + 1) hr)
  have hproducer : (s.memory.tick .consumer).view .producer = s.memory.view .producer :=
    Memory.tick_view_of_ne (by decide)
  -- A read changes neither the value nor who wrote it.
  have hcell : ∀ i c, c = Function.update s.buffer (s.popped.length % capacity)
        ((s.buffer (s.popped.length % capacity)).readBy s.memory .consumer) i →
      c.value = (s.buffer i).value ∧ c.written = (s.buffer i).written := by
    rintro i c rfl
    by_cases hi : i = s.popped.length % capacity
    · subst hi
      rw [Function.update_self]
      exact ⟨rfl, rfl⟩
    · rw [Function.update_of_ne hi]
      exact ⟨rfl, rfl⟩
  refine ⟨h.tail.tick _, h.head.tick _, Memory.Bound.tick_clock h.clock _, h.le, h.lt, h.taken, fun i hi hi' => ?_,
    fun i hi hi' => ?_, fun i => ?_, ?_, ?_⟩
  · simp only [State.setSlot, (hcell _ _ rfl).1]
    exact h.slots i hi hi'
  · simp only [State.setSlot, State.writes, hproducer, (hcell _ _ rfl).2] at hi' ⊢
    exact h.written i hi hi'
  · by_cases hi : i = s.popped.length % capacity
    · subst hi
      have hold := h.slotOk (s.popped.length % capacity)
      refine ⟨?_, ?_, ?_, .inr ⟨s.popped.length, ?_, rfl, ?_⟩⟩
      · simp only [State.setSlot, State.writes, hproducer, (hcell _ _ rfl).2]
        exact hold.written_le
      · simp only [State.setSlot, (hcell _ _ rfl).2]
        exact hold.written_consumer
      · simpa [State.setSlot, Cell.readBy] using hold.read_producer
      · simp only [State.setSlot, State.reads, hr']
        exact Nat.lt_succ_self _
      · simp only [State.setSlot, Function.update_self, Cell.readBy]
        rw [← State.reads, hr]
    · refine (h.slotOk i).frame (Function.update_of_ne hi ..) (le_of_eq ?_) ?_
      · simp only [State.setSlot, State.writes, hproducer]
      · simp only [State.setSlot]
        rw [State.reads, State.reads, hr', ← State.reads, hr]
        exact Nat.le_succ _
  · exact h.producer.frame h.lt rfl rfl (Nat.le_refl _) hproducer (fun i => (hcell i _ rfl).1) fun b _ hb =>
      hb.keep rfl (Memory.tick_le _)
  · simp only [ConsumerOk]
    exact ⟨hr', hs.keep rfl (Memory.tick_le _), rfl, hlt, h.slots _ (Nat.le_refl _) hlt⟩

/-! ## Stores -/

theorem pushed_store {item : α} :
    State.pushed { s with memory, producer := .idle, pushes := s.pushes ++ [(item, true)] } =
    s.pushed ++ [item] := by simp [State.pushed]

theorem Inv.pushStore {item : α} {nextTail : Nat} (h : Inv capacity s) (hp : s.producer = .written item nextTail)
    (hm : s.memory.store .producer .tail .release k nextTail = some memory) :
    Inv capacity { s with memory, producer := .idle, pushes := s.pushes ++ [(item, true)] } := by
  have hok := h.producer
  simp only [ProducerOk, hp] at hok
  obtain ⟨hw, hr, hn, hroom, hx⟩ := hok
  have hclock := fun t => (h.clock t).store_clock hm
  have hw' : memory.view .producer (.access .producer) = s.pushed.length + 1 := (hclock .producer).1.trans hw
  have hle := h.le
  have htail := h.tail.store hm rfl (by rw [← State.writes, hw]; omega) (by rw [← State.writes, hw]; exact hn)
  rw [← State.writes, hw] at htail
  refine ⟨?_, h.head.store_keep hm (by decide), fun t => (hclock t).2, ?_, ?_, ?_, fun i hi hi' => ?_,
    fun i hi hi' => ?_, fun i => ?_, ?_, ?_⟩
  · rw [pushed_store, List.length_append, List.length_singleton]
    exact htail
  · rw [pushed_store, List.length_append]
    exact Nat.le_add_right_of_le hle
  · rw [pushed_store, List.length_append, List.length_singleton]
    show s.pushed.length + 1 < s.popped.length + capacity
    omega
  · rw [pushed_store]
    exact h.taken.trans (List.take_append_of_le_length hle).symm
  · rw [pushed_store] at hi' ⊢
    rw [List.length_append, List.length_singleton] at hi'
    rcases Nat.lt_succ_iff_lt_or_eq.mp hi' with hlt | rfl
    · rw [List.getElem?_append_left hlt]
      exact h.slots i hi hlt
    · rw [List.getElem?_concat_length, ← hx]
  · rw [State.writes, (hclock .producer).1] at hi'
    exact h.written i hi hi'
  · refine (h.slotOk i).frame rfl ?_ ?_
    · exact le_of_eq (hclock .producer).1.symm
    · exact le_of_eq (hclock .consumer).1.symm
  · simp only [ProducerOk]
    rw [pushed_store, List.length_append, List.length_singleton]
    exact ⟨hw', hr.keep (Memory.store_msgs_loc_of_ne hm (by decide)) (Memory.store_le hm _)⟩
  · refine h.consumer.frame hle rfl rfl (by rw [pushed_store]; exact List.prefix_append ..)
      (Memory.store_view_of_ne hm (by decide)) fun b hb hat => hat.store hm rfl ?_
    rw [← State.writes, hw]
    omega

theorem popped_store {item : α} : State.popped { s with memory, consumer := .idle, pops := s.pops ++ [some item] } =
    s.popped ++ [item] := by simp [State.popped]

theorem Inv.popStore (hcap : ValidCapacity capacity) {item : α} {head : Nat} (h : Inv capacity s)
    (hc : s.consumer = .read head item)
    (hm : s.memory.store .consumer .head .release k (next capacity head) = some memory) :
    Inv capacity { s with memory, consumer := .idle, pops := s.pops ++ [some item] } := by
  have hok := h.consumer
  simp only [ConsumerOk, hc] at hok
  obtain ⟨hr, hs, rfl, hlt, hx⟩ := hok
  have hclock := fun t => (h.clock t).store_clock hm
  have hr' : memory.view .consumer (.access .consumer) = s.popped.length + 1 := (hclock .consumer).1.trans hr
  have hnext : next capacity (s.popped.length % capacity) = (s.popped.length + 1) % capacity := by
    rw [next_eq_mod hcap, Nat.mod_add_mod]
  have hhead := h.head.store hm rfl (by rw [← State.reads, hr]; omega) (by rw [← State.reads, hr]; exact hnext)
  rw [← State.reads, hr] at hhead
  have hlt' := h.lt
  refine ⟨h.tail.store_keep hm (by decide), ?_, fun t => (hclock t).2, ?_, ?_, ?_, fun i hi hi' => ?_,
    fun i hi hi' => ?_, fun i => ?_, ?_, ?_⟩
  · rw [popped_store, List.length_append, List.length_singleton]
    exact hhead
  · rw [popped_store, List.length_append, List.length_singleton]
    exact hlt
  · rw [popped_store, List.length_append, List.length_singleton]
    show s.pushed.length < s.popped.length + 1 + capacity
    omega
  · rw [popped_store, List.length_append, List.length_singleton]
    show s.popped ++ [item] = s.pushed.take (s.popped.length + 1)
    rw [List.take_add_one, hx, ← h.taken]
    rfl
  · rw [popped_store, List.length_append, List.length_singleton] at hi
    exact h.slots i (by omega) hi'
  · rw [popped_store, List.length_append, List.length_singleton] at hi
    rw [State.writes, (hclock .producer).1] at hi'
    exact h.written i (by omega) hi'
  · refine (h.slotOk i).frame rfl ?_ ?_
    · exact le_of_eq (hclock .producer).1.symm
    · exact le_of_eq (hclock .consumer).1.symm
  · refine h.producer.frame h.lt rfl rfl ?_ (Memory.store_view_of_ne hm (by decide)) (fun _ => rfl)
      fun b hb hat => hat.store hm rfl ?_
    · rw [popped_store, List.length_append]
      exact Nat.le_add_right ..
    · rw [← State.reads, hr]
      omega
  · simp only [ConsumerOk]
    rw [popped_store, List.length_append, List.length_singleton]
    exact ⟨hr', hs.keep (Memory.store_msgs_loc_of_ne hm (by decide)) (Memory.store_le hm _)⟩

/-! ## Every interleaving -/

theorem Inv.turn (hc : ValidCapacity capacity) (h : Inv capacity s) (ht : Turn capacity s s') :
    Inv capacity s' := by
  cases ht with
  | pushLoadTail hp hm => exact h.pushLoadTail hc hp hm
  | pushFull hp hm => exact h.pushFull hp hm
  | pushRoom hp hm hf => exact h.pushRoom hp hm hf
  | pushWrite hp => exact h.pushWrite hp
  | pushStore hp hm => exact h.pushStore hp hm
  | popLoadHead hq hm => exact h.popLoadHead hq hm
  | popEmpty hq hm => exact h.popEmpty hq hm
  | popSome hq hm he => exact h.popSome hq hm he
  | popRead hq => exact h.popRead hq
  | popStore hq hm => exact h.popStore hc hq hm

/-- The slot the producer writes to was last read a whole turn of the ring ago, and the producer knows that. -/
theorem Inv.write_ok (h : Inv capacity s) {item : α} {tail nextTail : Nat}
    (hp : s.producer = .loadedHead item tail nextTail) :
    (s.buffer tail).WritableBy (s.memory.view .producer) := by
  have hok := h.producer
  simp only [ProducerOk, hp] at hok
  obtain ⟨hw, _, rfl, _, _, hknown⟩ := hok
  have hslot := h.slotOk (s.pushed.length % capacity)
  intro u
  cases u with
  | producer => exact ⟨hslot.written_le, by rw [hslot.read_producer]; exact Nat.zero_le _⟩
  | consumer =>
    refine ⟨by rw [hslot.written_consumer]; exact Nat.zero_le _, ?_⟩
    rcases hslot.read_consumer with hz | ⟨j, hj, hmod, hread⟩
    · rw [hz]
      exact Nat.zero_le _
    · have hjn : j < s.pushed.length := by
        have hcons := h.consumer
        have hle := h.le
        unfold ConsumerOk at hcons
        split at hcons <;> omega
      have hturn : j + capacity ≤ s.pushed.length := by
        by_contra hlt
        have := Ring.mod_inj (Nat.le_of_lt hjn) (by omega) hmod
        omega
      rw [hread]
      omega

theorem Inv.read_ok (h : Inv capacity s) {head : Nat} (hc : s.consumer = .loadedTail head) :
    (s.buffer head).ReadableBy (s.memory.view .consumer) := by
  have hok := h.consumer
  simp only [ConsumerOk, hc] at hok
  obtain ⟨_, _, rfl, hlt, hknown⟩ := hok
  intro u
  cases u with
  | producer =>
    have hw : s.pushed.length ≤ s.writes := by
      have hprod := h.producer
      unfold ProducerOk at hprod
      split at hprod <;> omega
    rw [h.written _ (Nat.le_refl _) (by omega)]
    exact hknown
  | consumer =>
    rw [(h.slotOk _).written_consumer]
    exact Nat.zero_le _

/-- No access to the buffer races, the items come out in the order they went in, and there are never more of them
than there are slots but one. -/
theorem queueOrders_reachable (capacity : Nat) (hc : ValidCapacity capacity) (garbage : Nat → α) (s : State α)
    (h : (queue capacity garbage).Reachable s) :
    ¬ s.Racy ∧ s.popped <+: s.pushed ∧ s.pushed.length < s.popped.length + capacity := by
  have hi : Inv capacity s := h.inv (inv_init hc garbage) fun s i s' hi hs => hi.turn hc (turn_step hs)
  refine ⟨?_, ?_, hi.lt⟩
  · rintro (⟨item, tail, nextTail, hp, hn⟩ | ⟨head, hq, hn⟩)
    · exact hn (hi.write_ok hp)
    · exact hn (hi.read_ok hq)
  · rw [hi.taken]
    exact List.take_prefix ..

end

/-- One item passes through; the first `pop` finds the old tail. -/
def oneItem : List (Act Nat) :=
  [.pushLoadTail 7 0, .pushLoadHead 0, .pushWrite, .pushStore 2, .popLoadHead 0, .popLoadTail 0, .popLoadHead 0,
    .popLoadTail 2, .popRead, .popStore 1]

theorem queueOrders_reachable_one : ∃ s, (queue 4 fun _ => 0).run (queue 4 fun _ => 0).init oneItem = some s ∧
    s.popped = [7] ∧ ¬ s.Racy := by
  obtain ⟨s, hs, hp⟩ : ∃ s, (queue 4 fun _ => 0).run (queue 4 fun _ => 0).init oneItem = some s ∧ s.popped = [7] :=
    ⟨_, rfl, rfl⟩
  exact ⟨s, hs, hp,
    (queueOrders_reachable 4 ⟨by decide, by decide⟩ (fun _ => 0) s (System.reachable_of_run _ .init hs)).1⟩

end Playground.LockFreeOrders
