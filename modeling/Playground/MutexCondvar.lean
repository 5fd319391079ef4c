import Mathlib.Data.Fintype.Option
import Playground.Lib.Monitor
import Playground.Lib.Transition

/-!
# A mutex and a condition variable (`producer` and `consumer` of `concurrency/mutex_condvar.cpp`)

The thread `none` runs `producer`, and the threads `some c` run `consumer`,
any number of them, each with a vector of its own. A thread acquires the mutex
at one program point, reads and writes the buffer while it holds it, and
notifies after it has released it. `wait` with a predicate is its loop, as in
the thread-safe queue.
-/

namespace Playground.MutexCondvar

inductive ProducerPc
  | lock (i : Nat)
  | push (i : Nat)
  | unlock (i : Nat)
  | notify (i : Nat)
  | doneLock
  | doneSet
  | doneUnlock
  | doneNotify
  | returned
  deriving DecidableEq

inductive ConsumerPc
  | lock
  | check
  | wait
  | waiting
  | woken
  | drain
  | leave
  -- the end of the block, where the loop goes on or was left
  | unlock (last : Bool)
  | returned
  deriving DecidableEq

inductive Thread
  | producer (pc : ProducerPc)
  | consumer (pc : ConsumerPc) (consumed : List Nat)
  deriving DecidableEq

/-- What the mutex protects, and the record of what was popped. -/
structure Shared where
  buffer : List Nat := []
  done : Bool := false
  popped : List Nat := []

/-- The head of the loop over `NUM_ITEMS` items. -/
def next (numItems i : Nat) : ProducerPc := if i < numItems then .lock i else .doneLock

def acquire : Thread → Option Thread
  | .producer (.lock i) => some (.producer (.push i))
  | .producer .doneLock => some (.producer .doneSet)
  | .consumer .lock consumed => some (.consumer .check consumed)
  | .consumer .woken consumed => some (.consumer .check consumed)
  | _ => none

def release : Thread → Option Thread
  | .producer (.unlock i) => some (.producer (.notify i))
  | .producer .doneUnlock => some (.producer .doneNotify)
  | .consumer .wait consumed => some (.consumer .waiting consumed)
  | .consumer (.unlock last) consumed => some (.consumer (if last then .returned else .lock) consumed)
  | _ => none

def ready (x : Shared) : Bool := !x.buffer.isEmpty || x.done

/-- One round of `while (!buffer.empty())`. -/
def drain (x : Shared) (consumed : List Nat) : Shared × Thread :=
  match x.buffer with
  | [] => (x, .consumer .leave consumed)
  | val :: buffer => ({ x with buffer, popped := x.popped ++ [val] }, .consumer .drain (consumed ++ [val]))

def inside (x : Shared) : Thread → Option (Shared × Thread)
  | .producer (.push i) => some ({ x with buffer := x.buffer ++ [i] }, .producer (.unlock i))
  | .producer .doneSet => some ({ x with done := true }, .producer .doneUnlock)
  | .consumer .check consumed => some (x, .consumer (if ready x then .drain else .wait) consumed)
  | .consumer .drain consumed => some (drain x consumed)
  | .consumer .leave consumed => some (x, .consumer (.unlock (x.done && x.buffer.isEmpty)) consumed)
  | _ => none

def Thread.holds : Thread → Bool
  | .producer (.push _) | .producer (.unlock _) | .producer .doneSet | .producer .doneUnlock => true
  | .consumer .check _ | .consumer .wait _ | .consumer .drain _ | .consumer .leave _
  | .consumer (.unlock _) _ => true
  | _ => false

theorem holds_drain (x : Shared) (consumed : List Nat) : (drain x consumed).2.holds = true := by
  unfold drain
  split <;> rfl

def program : Monitor.Program Shared Thread where
  acquire := acquire
  release := release
  inside := inside
  holds := Thread.holds
  holds_acquire := by
    intro c c' h
    cases c with
    | producer pc => cases pc <;> cases h <;> exact ⟨rfl, rfl⟩
    | consumer pc consumed => cases pc <;> cases h <;> exact ⟨rfl, rfl⟩
  holds_release := by
    intro c c' h
    cases c with
    | producer pc => cases pc <;> cases h <;> exact ⟨rfl, rfl⟩
    | consumer pc consumed =>
      cases pc with
      | unlock last => cases last <;> cases h <;> exact ⟨rfl, rfl⟩
      | _ => cases h <;> exact ⟨rfl, rfl⟩
  holds_inside := by
    intro x c x' c' h
    cases c with
    | producer pc => cases pc <;> cases h <;> exact ⟨rfl, rfl⟩
    | consumer pc consumed =>
      cases pc with
      | check =>
        obtain ⟨rfl, rfl⟩ := Prod.mk.inj (Option.some.inj h)
        exact ⟨rfl, by split <;> rfl⟩
      | drain => exact ⟨rfl, congrArg (fun p => p.2.holds) (Option.some.inj h) ▸ holds_drain x consumed⟩
      | leave => cases h; exact ⟨rfl, rfl⟩
      | _ => cases h
  continues := by
    intro x c h
    cases c with
    | producer pc => cases pc <;> first | exact .inl rfl | exact .inr rfl | cases h
    | consumer pc consumed => cases pc <;> first | exact .inl rfl | exact .inr rfl | cases h

def Thread.isWaiting : Thread → Bool
  | .consumer .waiting _ => true
  | _ => false

def wake : Thread → Thread
  | .consumer _ consumed => .consumer .woken consumed
  | t => t

abbrev State (C : Type) := Monitor.State (Option C) Shared Thread

inductive Act (C : Type)
  | acquire (t : Option C)
  | release (t : Option C)
  | inside (t : Option C)
  | notifyOne (w : Option (Option C))
  | notifyAll
  | spurious (w : Option C)

def Act.isSpurious {C : Type} : Act C → Bool
  | .spurious _ => true
  | _ => false

section
variable {C : Type} [Fintype C] [DecidableEq C]

def step (numItems : Nat) (s : State C) : Act C → Option (State C)
  | .acquire t => program.acquireStep s t
  | .release t => program.releaseStep s t
  | .inside t => program.insideStep s t
  | .notifyOne w =>
    match s.pc none with
    | .producer (.notify i) =>
      (Monitor.notifyOne Thread.isWaiting wake s.pc w).map fun pc =>
        { s with pc := Function.update pc none (.producer (next numItems (i + 1))) }
    | _ => none
  | .notifyAll =>
    match s.pc none with
    | .producer .doneNotify =>
      some { s with
        pc := Function.update (Monitor.notifyAll Thread.isWaiting wake s.pc) none (.producer .returned) }
    | _ => none
  | .spurious w => if (s.pc w).isWaiting then some (s.goto w (wake (s.pc w))) else none

def producerConsumer (C : Type) [Fintype C] [DecidableEq C] (numItems : Nat) : System (State C) (Act C) where
  init := ⟨{}, none, fun t => t.elim (.producer (next numItems 0)) fun _ => .consumer .lock []⟩
  step := step numItems

end

end Playground.MutexCondvar
