import Playground.Lib.WeakMemory
import Playground.LockFreeQueue

/-!
# The lock-free queue under its memory orders (`concurrency/lock_free_queue.cpp`)

The queue again, with the indices in weak memory: each side loads its own index
relaxed, loads the other side's with `acquire` and publishes its own with
`release`. The slots of the buffer are plain data. What a side loads of the
other one's index may be old.
-/

namespace Playground.LockFreeOrders

open WeakMemory LockFreeQueue

inductive Side
  | producer
  | consumer
  deriving DecidableEq

inductive Index
  | head
  | tail
  deriving DecidableEq

structure State (α : Type) where
  memory : Memory Side Index fun _ => Nat
  buffer : Nat → Cell Side α
  producer : Producer α
  consumer : Consumer α
  pushes : List (α × Bool)
  pops : List (Option α)

/-- The atomic steps, with the timestamp of the message loaded or stored. -/
inductive Act (α : Type)
  | pushLoadTail (item : α) (k : Nat)
  | pushLoadHead (k : Nat)
  | pushWrite
  | pushStore (k : Nat)
  | popLoadHead (k : Nat)
  | popLoadTail (k : Nat)
  | popRead
  | popStore (k : Nat)

section
variable {α : Type}

def State.setSlot (s : State α) (t : Side) (i : Nat) (c : Cell Side α) : State α :=
  { s with memory := s.memory.tick t, buffer := Function.update s.buffer i c }

def step (capacity : Nat) (s : State α) : Act α → Option (State α)
  | .pushLoadTail item k =>
    match s.producer with
    | .idle => (s.memory.load .producer .tail .relaxed k).map fun p =>
      { s with memory := p.2, producer := .loadedTail item p.1 (next capacity p.1) }
    | _ => none
  | .pushLoadHead k =>
    match s.producer with
    | .loadedTail item tail nextTail => (s.memory.load .producer .head .acquire k).map fun p =>
      if nextTail = p.1 then
        { s with memory := p.2, producer := .idle, pushes := s.pushes ++ [(item, false)] } -- queue full
      else { s with memory := p.2, producer := .loadedHead item tail nextTail }
    | _ => none
  | .pushWrite =>
    match s.producer with
    | .loadedHead item tail nextTail =>
      some { s.setSlot .producer tail ((s.buffer tail).writeBy s.memory .producer item) with
        producer := .written item nextTail }
    | _ => none
  | .pushStore k =>
    match s.producer with
    | .written item nextTail => (s.memory.store .producer .tail .release k nextTail).map fun memory =>
      { s with memory, producer := .idle, pushes := s.pushes ++ [(item, true)] }
    | _ => none
  | .popLoadHead k =>
    match s.consumer with
    | .idle => (s.memory.load .consumer .head .relaxed k).map fun p =>
      { s with memory := p.2, consumer := .loadedHead p.1 }
    | _ => none
  | .popLoadTail k =>
    match s.consumer with
    | .loadedHead head => (s.memory.load .consumer .tail .acquire k).map fun p =>
      if head = p.1 then { s with memory := p.2, consumer := .idle, pops := s.pops ++ [none] } -- queue empty
      else { s with memory := p.2, consumer := .loadedTail head }
    | _ => none
  | .popRead =>
    match s.consumer with
    | .loadedTail head =>
      some { s.setSlot .consumer head ((s.buffer head).readBy s.memory .consumer) with
        consumer := .read head (s.buffer head).value }
    | _ => none
  | .popStore k =>
    match s.consumer with
    | .read head item => (s.memory.store .consumer .head .release k (next capacity head)).map fun memory =>
      { s with memory, consumer := .idle, pops := s.pops ++ [some item] }
    | _ => none

/-- `garbage` is what the buffer holds before the first push. -/
def queue (capacity : Nat) (garbage : Nat → α) : System (State α) (Act α) where
  init := ⟨.start fun _ => 0, fun i => .fresh (garbage i), .idle, .idle, [], []⟩
  step := step capacity

def State.pushed (s : State α) : List α := s.pushes.filterMap fun p => if p.2 then some p.1 else none

def State.popped (s : State α) : List α := s.pops.filterMap id

/-- The next access of a side to the buffer races with an earlier one. -/
def State.Racy (s : State α) : Prop :=
  (∃ item tail nextTail, s.producer = .loadedHead item tail nextTail ∧
      ¬ (s.buffer tail).WritableBy (s.memory.view .producer)) ∨
    ∃ head, s.consumer = .loadedTail head ∧ ¬ (s.buffer head).ReadableBy (s.memory.view .consumer)

/-! ## One step -/

inductive Turn (capacity : Nat) (s : State α) : State α → Prop
  | pushLoadTail {item k tail memory} (hp : s.producer = .idle)
      (hm : s.memory.load .producer .tail .relaxed k = some (tail, memory)) :
      Turn capacity s { s with memory, producer := .loadedTail item tail (next capacity tail) }
  | pushFull {item tail nextTail k memory} (hp : s.producer = .loadedTail item tail nextTail)
      (hm : s.memory.load .producer .head .acquire k = some (nextTail, memory)) :
      Turn capacity s { s with memory, producer := .idle, pushes := s.pushes ++ [(item, false)] }
  | pushRoom {item tail nextTail k head memory} (hp : s.producer = .loadedTail item tail nextTail)
      (hm : s.memory.load .producer .head .acquire k = some (head, memory)) (hf : nextTail ≠ head) :
      Turn capacity s { s with memory, producer := .loadedHead item tail nextTail }
  | pushWrite {item tail nextTail} (hp : s.producer = .loadedHead item tail nextTail) : Turn capacity s
      { s.setSlot .producer tail ((s.buffer tail).writeBy s.memory .producer item) with
        producer := .written item nextTail }
  | pushStore {item nextTail k memory} (hp : s.producer = .written item nextTail)
      (hm : s.memory.store .producer .tail .release k nextTail = some memory) :
      Turn capacity s { s with memory, producer := .idle, pushes := s.pushes ++ [(item, true)] }
  | popLoadHead {k head memory} (hc : s.consumer = .idle)
      (hm : s.memory.load .consumer .head .relaxed k = some (head, memory)) :
      Turn capacity s { s with memory, consumer := .loadedHead head }
  | popEmpty {head k memory} (hc : s.consumer = .loadedHead head)
      (hm : s.memory.load .consumer .tail .acquire k = some (head, memory)) :
      Turn capacity s { s with memory, consumer := .idle, pops := s.pops ++ [none] }
  | popSome {head k tail memory} (hc : s.consumer = .loadedHead head)
      (hm : s.memory.load .consumer .tail .acquire k = some (tail, memory)) (he : head ≠ tail) :
      Turn capacity s { s with memory, consumer := .loadedTail head }
  | popRead {head} (hc : s.consumer = .loadedTail head) : Turn capacity s
      { s.setSlot .consumer head ((s.buffer head).readBy s.memory .consumer) with
        consumer := .read head (s.buffer head).value }
  | popStore {head item k memory} (hc : s.consumer = .read head item)
      (hm : s.memory.store .consumer .head .release k (next capacity head) = some memory) :
      Turn capacity s { s with memory, consumer := .idle, pops := s.pops ++ [some item] }

theorem turn_push {capacity : Nat} {s s' : State α} {item : α} {tail nextTail k : Nat}
    (hp : s.producer = .loadedTail item tail nextTail) (h : step capacity s (.pushLoadHead k) = some s') :
    Turn capacity s s' := by
  simp only [step, hp] at h
  obtain ⟨⟨head, memory⟩, hm, rfl⟩ := Option.map_eq_some_iff.mp h
  by_cases hf : nextTail = head
  · subst hf
    rw [if_pos rfl]
    exact .pushFull hp hm
  · rw [if_neg hf]
    exact .pushRoom hp hm hf

theorem turn_pop {capacity : Nat} {s s' : State α} {head k : Nat} (hc : s.consumer = .loadedHead head)
    (h : step capacity s (.popLoadTail k) = some s') : Turn capacity s s' := by
  simp only [step, hc] at h
  obtain ⟨⟨tail, memory⟩, hm, rfl⟩ := Option.map_eq_some_iff.mp h
  by_cases he : head = tail
  · subst he
    rw [if_pos rfl]
    exact .popEmpty hc hm
  · rw [if_neg he]
    exact .popSome hc hm he

theorem turn_step {capacity : Nat} {s s' : State α} {i : Act α} (h : step capacity s i = some s') :
    Turn capacity s s' := by
  cases i with
  | pushLoadTail item k =>
    simp only [step] at h
    split at h
    · rename_i hp
      obtain ⟨⟨tail, memory⟩, hm, rfl⟩ := Option.map_eq_some_iff.mp h
      exact .pushLoadTail hp hm
    · cases h
  | pushLoadHead k =>
    cases hp : s.producer with
    | loadedTail item tail nextTail => exact turn_push hp h
    | _ => simp [step, hp] at h
  | pushWrite =>
    simp only [step] at h
    split at h
    · rename_i hp
      cases h
      exact .pushWrite hp
    · cases h
  | pushStore k =>
    simp only [step] at h
    split at h
    · rename_i hp
      obtain ⟨memory, hm, rfl⟩ := Option.map_eq_some_iff.mp h
      exact .pushStore hp hm
    · cases h
  | popLoadHead k =>
    simp only [step] at h
    split at h
    · rename_i hc
      obtain ⟨⟨head, memory⟩, hm, rfl⟩ := Option.map_eq_some_iff.mp h
      exact .popLoadHead hc hm
    · cases h
  | popLoadTail k =>
    cases hc : s.consumer with
    | loadedHead head => exact turn_pop hc h
    | _ => simp [step, hc] at h
  | popRead =>
    simp only [step] at h
    split at h
    · rename_i hc
      cases h
      exact .popRead hc
    · cases h
  | popStore k =>
    simp only [step] at h
    split at h
    · rename_i hc
      obtain ⟨memory, hm, rfl⟩ := Option.map_eq_some_iff.mp h
      exact .popStore hc hm
    · cases h

end

end Playground.LockFreeOrders
