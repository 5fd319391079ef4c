import Playground.LockFreeQueue

/-!
# The lock-free queue is a bounded FIFO queue

The indices are the numbers of completed pushes and pops, modulo the
capacity. The invariant (`Inv`) keeps these two numbers less than a capacity
apart, says which slots hold the items in between, and says what each thread
still knows about them: its own index is current, and the other side's index
may have moved on, which only helps.
-/

namespace Playground.LockFreeQueue

section
variable {α : Type} {capacity : Nat}

theorem next_eq_mod (hc : ValidCapacity capacity) (i : Nat) : next capacity i = (i + 1) % capacity := by
  obtain ⟨k, rfl⟩ := Nat.ne_zero_and_sub_one_eq_zero_iff_isPowerOfTwo.mp hc
  exact Nat.and_two_pow_sub_one_eq_mod (i + 1) k

/-- What the producer knows, when `n` items have been pushed and `m` popped. -/
def ProducerOk (capacity : Nat) (s : State α) (n m : Nat) : Prop :=
  match s.producer with
  | .idle => True
  | .loadedTail _ tail nextTail => tail = s.tail ∧ nextTail = next capacity s.tail
  | .loadedHead _ tail nextTail => tail = s.tail ∧ nextTail = next capacity s.tail ∧ n + 1 < m + capacity
  | .written item nextTail => nextTail = next capacity s.tail ∧ n + 1 < m + capacity ∧ s.buffer s.tail = item

/-- What the consumer knows, when `pushed` have been pushed and `m` items popped. -/
def ConsumerOk (s : State α) (pushed : List α) (m : Nat) : Prop :=
  match s.consumer with
  | .idle => True
  | .loadedHead head => head = s.head
  | .loadedTail head => head = s.head ∧ m < pushed.length
  | .read head item => head = s.head ∧ m < pushed.length ∧ pushed[m]? = some item

theorem ConsumerOk.snoc {s : State α} {pushed : List α} {m : Nat} (h : ConsumerOk s pushed m) (item : α) :
    ConsumerOk s (pushed ++ [item]) m := by
  unfold ConsumerOk at h ⊢
  rw [List.length_append, List.length_singleton]
  cases hq : s.consumer with
  | idle => trivial
  | loadedHead head => rw [hq] at h; exact h
  | loadedTail head => rw [hq] at h; exact ⟨h.1, Nat.lt_succ_of_lt h.2⟩
  | read head x =>
    rw [hq] at h
    obtain ⟨hh, hlt, hx⟩ := h
    exact ⟨hh, Nat.lt_succ_of_lt hlt, (List.getElem?_append_left hlt).trans hx⟩

theorem ProducerOk.popped {s : State α} {n m : Nat} (h : ProducerOk capacity s n m) :
    ProducerOk capacity s n (m + 1) := by
  unfold ProducerOk at h ⊢
  cases hp : s.producer with
  | idle => trivial
  | loadedTail x tail nextTail => rw [hp] at h; exact h
  | loadedHead x tail nextTail => rw [hp] at h; exact ⟨h.1, h.2.1, by omega⟩
  | written x nextTail => rw [hp] at h; exact ⟨h.1, by omega, h.2.2⟩

structure Inv (capacity : Nat) (s : State α) : Prop where
  head : s.head = s.popped.length % capacity
  tail : s.tail = s.pushed.length % capacity
  le : s.popped.length ≤ s.pushed.length
  lt : s.pushed.length < s.popped.length + capacity
  slots : ∀ i, s.popped.length ≤ i → i < s.pushed.length → s.pushed[i]? = some (s.buffer (i % capacity))
  taken : s.popped = s.pushed.take s.popped.length
  producer : ProducerOk capacity s s.pushed.length s.popped.length
  consumer : ConsumerOk s s.pushed s.popped.length

theorem inv_init (hc : ValidCapacity capacity) (garbage : Nat → α) :
    Inv capacity (queue capacity garbage).init where
  head := (Nat.zero_mod _).symm
  tail := (Nat.zero_mod _).symm
  le := Nat.le_refl _
  lt := by
    have : capacity ≠ 0 := hc.1
    show 0 < 0 + capacity
    omega
  slots := by intro i _ h; exact absurd h (Nat.not_lt_zero i)
  taken := rfl
  producer := trivial
  consumer := trivial

/-! ## Indices -/

theorem Inv.next_tail_eq_head (hc : ValidCapacity capacity) {s : State α} (h : Inv capacity s) :
    next capacity s.tail = s.head ↔ s.pushed.length + 1 = s.popped.length + capacity := by
  rw [next_eq_mod hc, h.tail, h.head, Nat.mod_add_mod]
  have hle := h.le
  have hlt := h.lt
  constructor
  · intro e
    by_cases hn : s.pushed.length + 1 < s.popped.length + capacity
    · have := Ring.mod_inj (by omega) hn e.symm
      omega
    · omega
  · intro e
    rw [e, Nat.add_mod_right]

theorem Inv.head_eq_tail {s : State α} (h : Inv capacity s) :
    s.head = s.tail ↔ s.popped.length = s.pushed.length := by
  rw [h.head, h.tail]
  exact ⟨Ring.mod_inj h.le h.lt, fun e => by rw [e]⟩

theorem Inv.tail_ne_slot {s : State α} (h : Inv capacity s) {i : Nat} (hi : s.popped.length ≤ i)
    (hi' : i < s.pushed.length) : i % capacity ≠ s.tail := by
  rw [h.tail]
  intro e
  have hlt := h.lt
  have := Ring.mod_inj (Nat.le_of_lt hi') (by omega) e
  omega

theorem Inv.stored_eq {s : State α} (h : Inv capacity s) : s.stored capacity = s.pushed.drop s.popped.length := by
  rw [Ring.drop_eq_slots h.slots, State.stored, h.head, h.tail, Ring.dist_mod h.le h.lt]

theorem Inv.stored_length {s : State α} (h : Inv capacity s) :
    (s.stored capacity).length = s.pushed.length - s.popped.length := by
  rw [h.stored_eq, List.length_drop]

theorem Inv.pushed_eq {s : State α} (h : Inv capacity s) : s.pushed = s.popped ++ s.stored capacity := by
  rw [h.stored_eq, h.taken, List.length_take, Nat.min_eq_left h.le]
  exact (List.take_append_drop _ _).symm

/-! ## One step -/

inductive Move (capacity : Nat) (s : State α) : Act α → State α → Prop
  | pushLoadTail {item} (hp : s.producer = .idle) : Move capacity s (.pushLoadTail item)
      { s with producer := .loadedTail item s.tail (next capacity s.tail) }
  | pushFull {item tail nextTail} (hp : s.producer = .loadedTail item tail nextTail) (hf : nextTail = s.head) :
      Move capacity s .pushLoadHead { s with producer := .idle, pushes := s.pushes ++ [(item, false)] }
  | pushRoom {item tail nextTail} (hp : s.producer = .loadedTail item tail nextTail) (hf : nextTail ≠ s.head) :
      Move capacity s .pushLoadHead { s with producer := .loadedHead item tail nextTail }
  | pushWrite {item tail nextTail} (hp : s.producer = .loadedHead item tail nextTail) : Move capacity s .pushWrite
      { s with producer := .written item nextTail, buffer := Function.update s.buffer tail item }
  | pushStore {item nextTail} (hp : s.producer = .written item nextTail) : Move capacity s .pushStore
      { s with producer := .idle, tail := nextTail, pushes := s.pushes ++ [(item, true)] }
  | popLoadHead (hc : s.consumer = .idle) : Move capacity s .popLoadHead { s with consumer := .loadedHead s.head }
  | popEmpty {head} (hc : s.consumer = .loadedHead head) (he : head = s.tail) :
      Move capacity s .popLoadTail { s with consumer := .idle, pops := s.pops ++ [none] }
  | popSome {head} (hc : s.consumer = .loadedHead head) (he : head ≠ s.tail) :
      Move capacity s .popLoadTail { s with consumer := .loadedTail head }
  | popRead {head} (hc : s.consumer = .loadedTail head) :
      Move capacity s .popRead { s with consumer := .read head (s.buffer head) }
  | popStore {head item} (hc : s.consumer = .read head item) : Move capacity s .popStore
      { s with consumer := .idle, head := next capacity head, pops := s.pops ++ [some item] }

theorem move_of_step {s s' : State α} {i : Act α} (h : step capacity s i = some s') : Move capacity s i s' := by
  cases i with
  | pushLoadTail item =>
    unfold step at h
    cases hp : s.producer with
    | idle =>
      rw [hp] at h
      obtain rfl := Option.some.inj h
      exact .pushLoadTail hp
    | _ => rw [hp] at h; cases h
  | pushLoadHead =>
    unfold step at h
    cases hp : s.producer with
    | loadedTail item tail nextTail =>
      rw [hp] at h
      by_cases hf : nextTail = s.head
      · simp only [hf, if_true, Option.some.injEq] at h
        subst h
        exact .pushFull hp hf
      · simp only [hf, if_false, Option.some.injEq] at h
        subst h
        exact .pushRoom hp hf
    | _ => rw [hp] at h; cases h
  | pushWrite =>
    unfold step at h
    cases hp : s.producer with
    | loadedHead item tail nextTail =>
      rw [hp] at h
      obtain rfl := Option.some.inj h
      exact .pushWrite hp
    | _ => rw [hp] at h; cases h
  | pushStore =>
    unfold step at h
    cases hp : s.producer with
    | written item nextTail =>
      rw [hp] at h
      obtain rfl := Option.some.inj h
      exact .pushStore hp
    | _ => rw [hp] at h; cases h
  | popLoadHead =>
    unfold step at h
    cases hc : s.consumer with
    | idle =>
      rw [hc] at h
      obtain rfl := Option.some.inj h
      exact .popLoadHead hc
    | _ => rw [hc] at h; cases h
  | popLoadTail =>
    unfold step at h
    cases hc : s.consumer with
    | loadedHead head =>
      rw [hc] at h
      by_cases he : head = s.tail
      · simp only [he, if_true, Option.some.injEq] at h
        subst h
        exact .popEmpty hc he
      · simp only [he, if_false, Option.some.injEq] at h
        subst h
        exact .popSome hc he
    | _ => rw [hc] at h; cases h
  | popRead =>
    unfold step at h
    cases hc : s.consumer with
    | loadedTail head =>
      rw [hc] at h
      obtain rfl := Option.some.inj h
      exact .popRead hc
    | _ => rw [hc] at h; cases h
  | popStore =>
    unfold step at h
    cases hc : s.consumer with
    | read head item =>
      rw [hc] at h
      obtain rfl := Option.some.inj h
      exact .popStore hc
    | _ => rw [hc] at h; cases h

/-- A step that moves no item keeps the invariant when each thread still knows what it says. -/
theorem Inv.congr {s s' : State α} (h : Inv capacity s) (hh : s'.head = s.head) (ht : s'.tail = s.tail)
    (hb : s'.buffer = s.buffer) (hpu : s'.pushed = s.pushed) (hpo : s'.popped = s.popped)
    (hp : ProducerOk capacity s' s.pushed.length s.popped.length)
    (hc : ConsumerOk s' s.pushed s.popped.length) : Inv capacity s' where
  head := by rw [hh, hpo]; exact h.head
  tail := by rw [ht, hpu]; exact h.tail
  le := by rw [hpu, hpo]; exact h.le
  lt := by rw [hpu, hpo]; exact h.lt
  slots := by rw [hpu, hpo, hb]; exact h.slots
  taken := by rw [hpu, hpo]; exact h.taken
  producer := by rw [hpu, hpo]; exact hp
  consumer := by rw [hpu, hpo]; exact hc

theorem pushed_full (s : State α) (item : α) :
    State.pushed { s with producer := .idle, pushes := s.pushes ++ [(item, false)] } = s.pushed := by
  simp [State.pushed]

theorem popped_empty (s : State α) :
    State.popped { s with consumer := .idle, pops := s.pops ++ [none] } = s.popped := by
  simp [State.popped]

theorem inv_pushWrite {s : State α} (h : Inv capacity s) {item : α} {tail nextTail : Nat}
    (hp : s.producer = .loadedHead item tail nextTail) :
    Inv capacity { s with producer := .written item nextTail, buffer := Function.update s.buffer tail item } := by
  have hok := h.producer
  unfold ProducerOk at hok
  rw [hp] at hok
  obtain ⟨rfl, hn, hroom⟩ := hok
  refine ⟨h.head, h.tail, h.le, h.lt, ?_, h.taken, ⟨hn, hroom, Function.update_self ..⟩, h.consumer⟩
  intro i hi hi'
  show s.pushed[i]? = some (Function.update s.buffer s.tail item (i % capacity))
  rw [Function.update_of_ne (h.tail_ne_slot hi hi')]
  exact h.slots i hi hi'

theorem inv_pushStore (hc : ValidCapacity capacity) {s : State α} (h : Inv capacity s) {item : α} {nextTail : Nat}
    (hp : s.producer = .written item nextTail) :
    Inv capacity { s with producer := .idle, tail := nextTail, pushes := s.pushes ++ [(item, true)] } := by
  have hok := h.producer
  unfold ProducerOk at hok
  rw [hp] at hok
  obtain ⟨rfl, hroom, hitem⟩ := hok
  have hpu : State.pushed
      { s with producer := .idle, tail := next capacity s.tail, pushes := s.pushes ++ [(item, true)] } =
      s.pushed ++ [item] := by simp [State.pushed]
  have hle := h.le
  constructor
  · exact h.head
  · rw [hpu, List.length_append, List.length_singleton]
    show next capacity s.tail = _
    rw [next_eq_mod hc, h.tail, Nat.mod_add_mod]
  · rw [hpu, List.length_append]
    exact Nat.le_add_right_of_le hle
  · rw [hpu, List.length_append, List.length_singleton]
    exact hroom
  · intro i hi hi'
    rw [hpu] at hi' ⊢
    rw [List.length_append, List.length_singleton] at hi'
    by_cases hlast : i = s.pushed.length
    · subst hlast
      rw [List.getElem?_concat_length, ← h.tail]
      exact congrArg some hitem.symm
    · rw [List.getElem?_append_left (by omega)]
      exact h.slots i hi (by omega)
  · rw [hpu]
    show s.popped = (s.pushed ++ [item]).take s.popped.length
    rw [List.take_append_of_le_length hle]
    exact h.taken
  · trivial
  · rw [hpu]
    exact h.consumer.snoc item

theorem inv_popStore (hc : ValidCapacity capacity) {s : State α} (h : Inv capacity s) {head : Nat} {item : α}
    (hq : s.consumer = .read head item) :
    Inv capacity { s with consumer := .idle, head := next capacity head, pops := s.pops ++ [some item] } := by
  have hcon := h.consumer
  unfold ConsumerOk at hcon
  rw [hq] at hcon
  obtain ⟨rfl, hsome, hitem⟩ := hcon
  have hpo :
    State.popped { s with consumer := .idle, head := next capacity s.head, pops := s.pops ++ [some item] } =
      s.popped ++ [item] := by simp [State.popped]
  have hlt := h.lt
  constructor
  · rw [hpo, List.length_append, List.length_singleton]
    show next capacity s.head = _
    rw [next_eq_mod hc, h.head, Nat.mod_add_mod]
  · exact h.tail
  · rw [hpo, List.length_append, List.length_singleton]
    exact hsome
  · rw [hpo, List.length_append, List.length_singleton]
    show s.pushed.length < _
    omega
  · intro i hi hi'
    rw [hpo, List.length_append, List.length_singleton] at hi
    exact h.slots i (by omega) hi'
  · rw [hpo, List.length_append, List.length_singleton]
    show _ = s.pushed.take _
    rw [List.take_add_one, hitem, ← h.taken]
    rfl
  · rw [hpo, List.length_append, List.length_singleton]
    exact h.producer.popped
  · trivial

theorem inv_move (hc : ValidCapacity capacity) {s s' : State α} {i : Act α} (h : Inv capacity s)
    (hm : Move capacity s i s') : Inv capacity s' := by
  have hp := h.producer
  have hcon := h.consumer
  unfold ProducerOk at hp
  unfold ConsumerOk at hcon
  cases hm with
  | pushLoadTail _ => exact h.congr rfl rfl rfl rfl rfl ⟨rfl, rfl⟩ h.consumer
  | pushFull hq hf => exact h.congr rfl rfl rfl (pushed_full s _) rfl trivial h.consumer
  | pushRoom hq hf =>
    rw [hq] at hp
    have hlt := h.lt
    have hfull : ¬ s.pushed.length + 1 = s.popped.length + capacity := fun e =>
      hf (hp.2 ▸ (h.next_tail_eq_head hc).mpr e)
    exact h.congr rfl rfl rfl rfl rfl ⟨hp.1, hp.2, by omega⟩ h.consumer
  | pushWrite hq => exact inv_pushWrite h hq
  | pushStore hq => exact inv_pushStore hc h hq
  | popLoadHead _ => exact h.congr rfl rfl rfl rfl rfl h.producer rfl
  | popEmpty hq he => exact h.congr rfl rfl rfl rfl (popped_empty s) h.producer trivial
  | popSome hq he =>
    rw [hq] at hcon
    obtain rfl : _ = s.head := hcon
    have hle := h.le
    have hne : ¬ s.popped.length = s.pushed.length := fun e => he (h.head_eq_tail.mpr e)
    exact h.congr rfl rfl rfl rfl rfl h.producer ⟨rfl, by omega⟩
  | popRead hq =>
    rw [hq] at hcon
    obtain ⟨rfl, hlt⟩ := hcon
    refine h.congr rfl rfl rfl rfl rfl h.producer ⟨rfl, hlt, ?_⟩
    show s.pushed[s.popped.length]? = some (s.buffer s.head)
    rw [h.slots _ (Nat.le_refl _) hlt, h.head]
  | popStore hq => exact inv_popStore hc h hq

theorem inv_reachable (hc : ValidCapacity capacity) {garbage : Nat → α} {s : State α}
    (h : (queue capacity garbage).Reachable s) : Inv capacity s :=
  h.inv (inv_init hc garbage) fun _ _ _ hi hs => inv_move hc hi (move_of_step hs)

/-! ## The queue, from outside -/

/-- The queue in one state, and at the steps that may be taken from it. -/
structure BoundedFifo (capacity : Nat) (s : State α) : Prop where
  popped_prefix : s.popped <+: s.pushed
  stored : s.pushed = s.popped ++ s.stored capacity
  bounded : (s.stored capacity).length ≤ capacity - 1
  separate : ∀ item tail nextTail head, s.producer = .loadedHead item tail nextTail →
    s.consumer = .loadedTail head → tail ≠ head
  in_range : s.head < capacity ∧ s.tail < capacity
  push_fails : ∀ i s' item, step capacity s i = some s' → s'.pushes = s.pushes ++ [(item, false)] →
    i = .pushLoadHead ∧ (s.stored capacity).length = capacity - 1
  pop_fails : ∀ i s', step capacity s i = some s' → s'.pops = s.pops ++ [none] →
    i = .popLoadTail ∧ s.stored capacity = []

theorem Inv.separate {s : State α} (h : Inv capacity s) {item : α} {tail nextTail head : Nat}
    (hp : s.producer = .loadedHead item tail nextTail) (hq : s.consumer = .loadedTail head) : tail ≠ head := by
  have hok := h.producer
  have hcon := h.consumer
  unfold ProducerOk at hok
  unfold ConsumerOk at hcon
  rw [hp] at hok
  rw [hq] at hcon
  obtain ⟨rfl, hlt⟩ := hcon
  rw [hok.1, h.head]
  exact (h.tail_ne_slot (Nat.le_refl _) hlt).symm

theorem Inv.push_fails (hc : ValidCapacity capacity) {s s' : State α} (h : Inv capacity s) {i : Act α} {item : α}
    (hm : Move capacity s i s') (hf : s'.pushes = s.pushes ++ [(item, false)]) :
    i = .pushLoadHead ∧ (s.stored capacity).length = capacity - 1 := by
  cases hm with
  | pushFull hp hfull =>
    have hok := h.producer
    unfold ProducerOk at hok
    rw [hp] at hok
    have hn := (h.next_tail_eq_head hc).mp (hok.2 ▸ hfull)
    have hlen := h.stored_length
    exact ⟨rfl, by omega⟩
  | pushStore _ => simp at hf
  | _ => exact absurd hf (by simp)

theorem Inv.pop_fails {s s' : State α} (h : Inv capacity s) {i : Act α} (hm : Move capacity s i s')
    (hf : s'.pops = s.pops ++ [none]) : i = .popLoadTail ∧ s.stored capacity = [] := by
  cases hm with
  | popEmpty hq he =>
    have hcon := h.consumer
    unfold ConsumerOk at hcon
    rw [hq] at hcon
    have hn := h.head_eq_tail.mp (hcon ▸ he)
    have hlen := h.stored_length
    exact ⟨rfl, List.length_eq_zero_iff.mp (by omega)⟩
  | popStore _ => simp at hf
  | _ => exact absurd hf (by simp)

/-- **Bounded FIFO.** In every interleaving of one producer and one consumer. -/
theorem boundedFifo_reachable (capacity : Nat) (hc : ValidCapacity capacity) (garbage : Nat → α) (s : State α)
    (h : (queue capacity garbage).Reachable s) : BoundedFifo capacity s := by
  have hi := inv_reachable hc h
  have hpos : 0 < capacity := Nat.pos_of_ne_zero hc.1
  have hlt := hi.lt
  have hlen := hi.stored_length
  exact {
    popped_prefix := ⟨s.stored capacity, hi.pushed_eq.symm⟩
    stored := hi.pushed_eq
    bounded := by omega
    separate := fun _ _ _ _ hp hq => hi.separate hp hq
    in_range := ⟨hi.head ▸ Nat.mod_lt _ hpos, hi.tail ▸ Nat.mod_lt _ hpos⟩
    push_fails := fun _ _ _ hs hf => hi.push_fails hc (move_of_step hs) hf
    pop_fails := fun _ _ hs hf => hi.pop_fails (move_of_step hs) hf }

end

/-- A push and a pop that overlap, at capacity 2. -/
def overlap : List (Act Nat) :=
  [.pushLoadTail 7, .pushLoadHead, .pushWrite, .popLoadHead, .pushStore, .popLoadTail, .pushLoadTail 8, .popRead,
    .pushLoadHead, .popStore]

theorem boundedFifo_overlap :
    ∃ s, (queue 2 fun _ => 0).run (queue 2 fun _ => 0).init overlap = some s ∧ s.pushes = [(7, true), (8, false)] ∧
      s.pops = [some 7] ∧ BoundedFifo 2 s :=
  ⟨_, rfl, rfl, rfl, boundedFifo_reachable 2 ⟨by decide, by decide⟩ (fun _ => 0) _
    (System.reachable_of_run overlap .init rfl)⟩

end Playground.LockFreeQueue
