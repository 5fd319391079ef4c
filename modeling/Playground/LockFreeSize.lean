import Playground.LockFreeQueueSound

/-!
# `size` and `empty` of the lock-free queue

A third thread loads `tail_` and then `head_`, while the producer and the
consumer go on. The state keeps, for the call under way, the states of the
queue since its first load; a finished call keeps them with its result.
-/

namespace Playground.LockFreeQueue

/-- A finished call: the states of the queue from its first step to its last, and the value. -/
structure SizeCall (α : Type) where
  moments : List (State α)
  size : Nat

inductive Observer (α : Type)
  | idle
  | loadedTail (tail : Nat) (moments : List (State α))

/-- The queue with a third thread that calls `size`, and the record of its calls. -/
structure Observed (α : Type) where
  queue : State α
  observer : Observer α
  calls : List (SizeCall α)

inductive ObservedAct (α : Type)
  | queue (act : Act α)
  | sizeLoadTail
  | sizeLoadHead

section
variable {α : Type}

/-- `(tail - head) & MASK`, in `size_t`. -/
def size (capacity tail head : Nat) : Nat := (tail + 2 ^ 64 - head) % 2 ^ 64 &&& (capacity - 1)

def SizeCall.empty (call : SizeCall α) : Bool := call.size == 0

def Observer.see (q : State α) : Observer α → Observer α
  | .idle => .idle
  | .loadedTail tail moments => .loadedTail tail (moments ++ [q])

def observedStep (capacity : Nat) (s : Observed α) : ObservedAct α → Option (Observed α)
  | .queue act => (step capacity s.queue act).map fun q => { s with queue := q, observer := s.observer.see q }
  | .sizeLoadTail =>
    match s.observer with
    | .idle => some { s with observer := .loadedTail s.queue.tail [s.queue] }
    | _ => none
  | .sizeLoadHead =>
    match s.observer with
    | .loadedTail tail moments =>
      some { s with observer := .idle, calls := s.calls ++ [⟨moments, size capacity tail s.queue.head⟩] }
    | _ => none

def observed (capacity : Nat) (garbage : Nat → α) : System (Observed α) (ObservedAct α) where
  init := ⟨(queue capacity garbage).init, .idle, []⟩
  step := observedStep capacity

def State.items (capacity : Nat) (s : State α) : Nat := (s.stored capacity).length

/-- The results of a call are those of one moment between its first and its last step. -/
structure SizeCall.Linearized (capacity : Nat) (call : SizeCall α) : Prop where
  size : ∃ s ∈ call.moments, call.size = s.items capacity
  empty : call.empty = true → ∃ s ∈ call.moments, s.items capacity = 0
  nonempty : call.empty = false → ∃ s ∈ call.moments, s.items capacity ≠ 0

theorem linearized_of_size {capacity : Nat} {call : SizeCall α} {s : State α} (hs : s ∈ call.moments)
    (h : call.size = s.items capacity) : call.Linearized capacity where
  size := ⟨s, hs, h⟩
  empty := by
    intro he
    exact ⟨s, hs, h ▸ beq_iff_eq.mp he⟩
  nonempty := by
    intro he
    exact ⟨s, hs, h ▸ fun h0 => absurd (beq_iff_eq.mpr h0) (ne_true_of_eq_false he)⟩

/-! ## The value -/

variable {capacity : Nat}

theorem Inv.items {s : State α} (h : Inv capacity s) :
    (s.items capacity : Int) = s.pushed.length - s.popped.length := by
  rw [State.items, h.stored_length]
  exact Int.ofNat_sub h.le

theorem Inv.items_lt {s : State α} (h : Inv capacity s) : s.items capacity < capacity := by
  rw [State.items, h.stored_length]
  have := h.lt
  have := h.le
  omega

theorem size_eq (hc : ValidCapacity capacity) (hsize : capacity < 2 ^ 64) {tail head : Nat} (hh : head < capacity) :
    (size capacity tail head : Int) = ((tail : Int) - head) % capacity := by
  obtain ⟨k, rfl⟩ := Nat.ne_zero_and_sub_one_eq_zero_iff_isPowerOfTwo.mp hc
  have hk : k < 64 := (Nat.pow_lt_pow_iff_right (by decide)).mp hsize
  have hdvd : 2 ^ k ∣ 2 ^ 64 := Nat.pow_dvd_pow 2 (Nat.le_of_lt hk)
  have hle : head ≤ tail + 2 ^ 64 := Nat.le_trans (Nat.le_of_lt (Nat.lt_trans hh hsize)) (Nat.le_add_left _ _)
  rw [size, Nat.and_two_pow_sub_one_eq_mod, Nat.mod_mod_of_dvd _ hdvd, Int.natCast_mod, Int.ofNat_sub hle]
  obtain ⟨d, hd⟩ := hdvd
  have he : ((tail + 2 ^ 64 : Nat) : Int) - head = (tail - head) + ((2 ^ k : Nat) : Int) * d := by
    rw [hd, Int.natCast_add, Int.natCast_mul]
    omega
  rw [he, Int.add_mul_emod_self_left]

theorem size_between (hc : ValidCapacity capacity) (hsize : capacity < 2 ^ 64) {first last : State α}
    (hf : Inv capacity first) (hl : Inv capacity last) : (size capacity first.tail last.head : Int) =
      (first.items capacity - ((last.popped.length : Int) - first.popped.length)) % capacity := by
  have hh : last.head < capacity := hl.head ▸ Nat.mod_lt _ (Nat.pos_of_ne_zero hc.1)
  rw [size_eq hc hsize hh, hf.tail, hl.head, hf.items, Int.natCast_mod, Int.natCast_mod, ← Int.sub_emod]
  congr 1
  omega

theorem items_emod {s : State α} (h : Inv capacity s) : (s.items capacity : Int) % capacity = s.items capacity := by
  have := h.items_lt
  exact Int.emod_eq_of_lt (by omega) (by omega)

theorem size_no_pop (hc : ValidCapacity capacity) (hsize : capacity < 2 ^ 64) {first last : State α}
    (hf : Inv capacity first) (hl : Inv capacity last) (hpop : last.popped.length = first.popped.length) :
    size capacity first.tail last.head = first.items capacity := by
  have h := size_between hc hsize hf hl
  rw [hpop, Int.sub_self, Int.sub_zero, items_emod hf] at h
  exact Int.ofNat.inj h

theorem size_no_push (hc : ValidCapacity capacity) (hsize : capacity < 2 ^ 64) {first last : State α}
    (hf : Inv capacity first) (hl : Inv capacity last) (hpush : last.pushed.length = first.pushed.length) :
    size capacity first.tail last.head = last.items capacity := by
  have h := size_between hc hsize hf hl
  have he : (first.items capacity : Int) - (last.popped.length - first.popped.length) = last.items capacity := by
    rw [hf.items, hl.items, hpush]
    omega
  rw [he, items_emod hl] at h
  exact Int.ofNat.inj h

theorem popped_le {s s' : State α} {i : Act α} (hm : Move capacity s i s') :
    s.popped.length ≤ s'.popped.length := by
  cases hm <;> simp [State.popped]

theorem pushed_le {s s' : State α} {i : Act α} (hm : Move capacity s i s') :
    s.pushed.length ≤ s'.pushed.length := by
  cases hm <;> simp [State.pushed]

/-- Who pops takes an item that was there. -/
theorem items_of_pop {s s' : State α} {i : Act α} (hm : Move capacity s i s') (h : Inv capacity s)
    (h' : Inv capacity s') (hpop : s.popped.length < s'.popped.length) : s.items capacity ≠ 0 := by
  have hpush : s'.pushed.length = s.pushed.length := by
    cases hm <;> first | rfl | simp [State.popped] at hpop
  have hle := h'.le
  have hitems := h.items
  omega

/-! ## A call -/

/-- What is known during a call that loaded `tail`: it was the tail of the first of `moments`. -/
structure Watching (capacity : Nat) (q : State α) (tail : Nat) (moments : List (State α)) (first : State α) :
    Prop where
  head : moments.head? = some first
  last : moments.getLast? = some q
  tail : tail = first.tail
  inv : Inv capacity first
  popped : first.popped.length ≤ q.popped.length
  pushed : first.pushed.length ≤ q.pushed.length
  nonempty : first.popped.length < q.popped.length → ∃ s ∈ moments, s.items capacity ≠ 0

theorem Watching.step {q q' first : State α} {tail : Nat} {moments : List (State α)}
    (h : Watching capacity q tail moments first) {i : Act α} (hm : Move capacity q i q') (hq : Inv capacity q)
    (hq' : Inv capacity q') : Watching capacity q' tail (moments ++ [q']) first where
  head := by rw [List.head?_append, h.head, Option.some_or]
  last := List.getLast?_concat
  tail := h.tail
  inv := h.inv
  popped := Nat.le_trans h.popped (popped_le hm)
  pushed := Nat.le_trans h.pushed (pushed_le hm)
  nonempty := by
    intro hlt
    by_cases hpop : q.popped.length < q'.popped.length
    · exact ⟨q, List.mem_append_left _ (List.mem_of_getLast? h.last), items_of_pop hm hq hq' hpop⟩
    · obtain ⟨s, hs, hne⟩ := h.nonempty (by omega)
      exact ⟨s, List.mem_append_left _ hs, hne⟩

/-- A finished call, from the state `q₁` at its first step to the state `q₂` at its last. -/
structure SizeOk (capacity : Nat) (call : SizeCall α) (q₁ q₂ : State α) : Prop where
  head : call.moments.head? = some q₁
  last : call.moments.getLast? = some q₂
  value : (call.size : Int) = (q₁.items capacity - ((q₂.popped.length : Int) - q₁.popped.length)) % capacity
  no_pop : q₂.popped.length = q₁.popped.length → call.size = q₁.items capacity
  no_push : q₂.pushed.length = q₁.pushed.length → call.size = q₂.items capacity
  nonempty : call.empty = false → ∃ s ∈ call.moments, s.items capacity ≠ 0
  quiet : q₂.popped.length = q₁.popped.length ∨ q₂.pushed.length = q₁.pushed.length → call.Linearized capacity

theorem Watching.sizeOk (hc : ValidCapacity capacity) (hsize : capacity < 2 ^ 64) {q first : State α} {tail : Nat}
    {moments : List (State α)} (h : Watching capacity q tail moments first) (hq : Inv capacity q) :
    SizeOk capacity ⟨moments, size capacity tail q.head⟩ first q := by
  obtain rfl := h.tail
  have hpop := size_no_pop hc hsize h.inv hq
  have hpush := size_no_push hc hsize h.inv hq
  refine ⟨h.head, h.last, size_between hc hsize h.inv hq, hpop, hpush, fun he => ?_, fun hquiet => ?_⟩
  · -- without a pop the first moment is not empty either
    rcases Nat.eq_or_lt_of_le h.popped with heq | hlt
    · exact (linearized_of_size (List.mem_of_head? h.head) (hpop heq.symm)).nonempty he
    · exact h.nonempty hlt
  cases hquiet with
  | inl he => exact linearized_of_size (List.mem_of_head? h.head) (hpop he)
  | inr he => exact linearized_of_size (List.mem_of_getLast? h.last) (hpush he)

/-! ## Runs -/

structure ObservedInv (capacity : Nat) (s : Observed α) : Prop where
  queue : Inv capacity s.queue
  watching : ∀ tail moments, s.observer = .loadedTail tail moments →
    ∃ first, Watching capacity s.queue tail moments first
  calls : ∀ call ∈ s.calls, ∃ q₁ q₂, SizeOk capacity call q₁ q₂

theorem ObservedInv.step (hc : ValidCapacity capacity) (hsize : capacity < 2 ^ 64) {s s' : Observed α}
    (h : ObservedInv capacity s) {i : ObservedAct α} (hst : observedStep capacity s i = some s') :
    ObservedInv capacity s' := by
  cases i with
  | queue act =>
    obtain ⟨q, hq, rfl⟩ := Option.map_eq_some_iff.mp hst
    have hm := move_of_step hq
    have hinv := inv_move hc h.queue hm
    refine ⟨hinv, fun tail moments hobs => ?_, h.calls⟩
    cases ho : s.observer with
    | idle =>
      simp [ho, Observer.see] at hobs
    | loadedTail t ms =>
      simp only [ho, Observer.see, Observer.loadedTail.injEq] at hobs
      obtain ⟨rfl, rfl⟩ := hobs
      obtain ⟨first, hw⟩ := h.watching t ms ho
      exact ⟨first, hw.step hm h.queue hinv⟩
  | sizeLoadTail =>
    cases ho : s.observer with
    | idle =>
      simp only [observedStep, ho, Option.some.injEq] at hst
      subst hst
      refine ⟨h.queue, fun tail moments hobs => ?_, h.calls⟩
      obtain ⟨rfl, rfl⟩ := Observer.loadedTail.inj hobs
      exact ⟨s.queue, rfl, rfl, rfl, h.queue, Nat.le_refl _, Nat.le_refl _, fun h => absurd h (Nat.lt_irrefl _)⟩
    | loadedTail t ms =>
      simp [observedStep, ho] at hst
  | sizeLoadHead =>
    cases ho : s.observer with
    | idle =>
      simp [observedStep, ho] at hst
    | loadedTail t ms =>
      simp only [observedStep, ho, Option.some.injEq] at hst
      subst hst
      obtain ⟨first, hw⟩ := h.watching t ms ho
      refine ⟨h.queue, nofun, fun call hcall => ?_⟩
      cases List.mem_append.mp hcall with
      | inl hcall => exact h.calls call hcall
      | inr hcall =>
        obtain rfl := List.mem_singleton.mp hcall
        exact ⟨first, s.queue, hw.sizeOk hc hsize h.queue⟩

/-- **What `size` returns**, for every call in every interleaving: the items at its first load less the pops
completed since, modulo the capacity; that of a moment of the call if only one side made progress. It is 0 unless
the queue was not empty at some moment. -/
theorem size_reachable (capacity : Nat) (hc : ValidCapacity capacity) (hsize : capacity < 2 ^ 64)
    (garbage : Nat → α) (s : Observed α) (h : (observed capacity garbage).Reachable s) (call : SizeCall α)
    (hcall : call ∈ s.calls) : ∃ q₁ q₂, SizeOk capacity call q₁ q₂ := by
  have hinv : ObservedInv capacity s := by
    apply h.inv (P := ObservedInv capacity)
    · exact ⟨inv_init hc garbage, nofun, nofun⟩
    · exact fun _ _ _ hi hst => hi.step hc hsize hst
  exact hinv.calls call hcall

end

/-- One item is stored; during the call a second one is pushed and the first popped. -/
def sizeOverlap : List (ObservedAct Nat) :=
  ([.pushLoadTail 1, .pushLoadHead, .pushWrite, .pushStore] : List (Act Nat)).map .queue ++
    ([.sizeLoadTail] : List (ObservedAct Nat)) ++
    ([.pushLoadTail 2, .pushLoadHead, .pushWrite, .pushStore, .popLoadHead, .popLoadTail, .popRead, .popStore] :
      List (Act Nat)).map .queue ++ ([.sizeLoadHead] : List (ObservedAct Nat))

theorem sizeOverlap_run : ∃ s call, (observed 4 fun _ => 0).Reachable s ∧ s.calls = [call] ∧ call.size = 0 ∧
    call.moments.map (State.items 4) = [1, 1, 1, 1, 2, 2, 2, 2, 1] := by
  have hresult : (System.run (S := observed 4 fun _ => 0) (observed 4 fun _ => 0).init sizeOverlap).map
      (fun s => s.calls.map fun call => (call.size, call.moments.map (State.items 4))) =
      some [(0, [1, 1, 1, 1, 2, 2, 2, 2, 1])] := by decide +kernel
  obtain ⟨s, hrun, hcalls⟩ := Option.map_eq_some_iff.mp hresult
  obtain ⟨call, hs, hcall⟩ := List.map_eq_singleton_iff.mp hcalls
  obtain ⟨hsize, hitems⟩ := Prod.mk.inj hcall
  exact ⟨s, call, System.reachable_of_run sizeOverlap System.Reachable.init hrun, hs, hsize, hitems⟩

theorem size_reachable_overlap : ∃ s call, (observed 4 fun _ => 0).Reachable s ∧ call ∈ s.calls ∧
    ∃ q₁ q₂, SizeOk 4 call q₁ q₂ := by
  obtain ⟨s, call, hr, hcalls, _⟩ := sizeOverlap_run
  have hmem : call ∈ s.calls := hcalls ▸ List.mem_singleton_self call
  exact ⟨s, call, hr, hmem, size_reachable 4 ⟨by decide, rfl⟩ (by decide) (fun _ => 0) s hr call hmem⟩

/-- The queue is never empty during the call, which returns 0 all the same. -/
theorem size_not_linearized : ValidCapacity 4 ∧ ¬ ∀ s, (observed 4 fun _ => 0).Reachable s →
    ∀ call ∈ s.calls, call.Linearized 4 := by
  refine ⟨⟨by decide, rfl⟩, fun hall => ?_⟩
  obtain ⟨s, call, hr, hcalls, hsize, hitems⟩ := sizeOverlap_run
  obtain ⟨q, hq, he⟩ := (hall s hr call (hcalls ▸ List.mem_singleton_self call)).size
  have hmem := List.mem_map_of_mem (f := State.items 4) hq
  rw [hitems, ← he, hsize] at hmem
  revert hmem
  decide

end Playground.LockFreeQueue
