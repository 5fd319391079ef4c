import Playground.Lib.Monitor
import Playground.Lib.Transition

/-!
# The thread-safe queue (`stl_like/thread_safe_queue.cpp`)

A queue behind a mutex and a condition variable. A thread that runs `push`,
`pop`, `try_pop` or `close` moves from one program point to the next: it
acquires the mutex, reads or writes the queue while it holds it, releases it,
and notifies after that. `wait` with a predicate is its loop: while the
predicate is false, enter the wait set (which releases the mutex), be woken,
acquire the mutex again. A thread may also be woken by nobody.

Any number of threads, each of which may call any operation whenever it is
idle. What `push` accepts and what `pop` and `try_pop` take is recorded.
-/

namespace Playground.ThreadSafeQueue

inductive Op (α : Type)
  | push (item : α)
  | pop
  | tryPop
  | close
  deriving DecidableEq

/-- Program points. Those of `pop` after the first wait have `woken := true`. -/
inductive Pc (α : Type)
  | idle
  | pushLock (item : α)
  | pushCheck (item : α)
  | pushThrow
  | pushEnqueue (item : α)
  | pushUnlock
  | pushNotify
  | popLock
  | popCheck (woken : Bool)
  | popWait
  | waiting
  | woken
  | popTake (woken : Bool)
  | tryPopLock
  | tryPopTake
  | unlock (result : Option α)
  | closeLock
  | closeSet
  | closeUnlock
  | closeNotify
  deriving DecidableEq

/-- What the mutex protects, and the record of accepted and of taken items. -/
structure Shared (α : Type) where
  queue : List α := []
  closed : Bool := false
  pushed : List α := []
  popped : List α := []

section
variable {α : Type}

def enter : Op α → Pc α
  | .push item => .pushLock item
  | .pop => .popLock
  | .tryPop => .tryPopLock
  | .close => .closeLock

def acquire : Pc α → Option (Pc α)
  | .pushLock item => some (.pushCheck item)
  | .popLock => some (.popCheck false)
  | .woken => some (.popCheck true)
  | .tryPopLock => some .tryPopTake
  | .closeLock => some .closeSet
  | _ => none

def release : Pc α → Option (Pc α)
  | .pushThrow => some .idle
  | .pushUnlock => some .pushNotify
  | .popWait => some .waiting
  | .unlock _ => some .idle
  | .closeUnlock => some .closeNotify
  | _ => none

/-- `if (queue_.empty()) return nullopt;`, else the front of the queue. -/
def take (x : Shared α) : Shared α × Pc α :=
  match x.queue with
  | [] => (x, .unlock none)
  | item :: queue => ({ x with queue, popped := x.popped ++ [item] }, .unlock (some item))

def ready (x : Shared α) : Bool := !x.queue.isEmpty || x.closed

def inside (x : Shared α) : Pc α → Option (Shared α × Pc α)
  | .pushCheck item => some (x, if x.closed then .pushThrow else .pushEnqueue item)
  | .pushEnqueue item => some ({ x with queue := x.queue ++ [item], pushed := x.pushed ++ [item] }, .pushUnlock)
  | .popCheck woken => some (x, if ready x then .popTake woken else .popWait)
  | .popTake _ => some (take x)
  | .tryPopTake => some (take x)
  | .closeSet => some ({ x with closed := true }, .closeUnlock)
  | _ => none

def Pc.holds : Pc α → Bool
  | .pushCheck _ | .pushThrow | .pushEnqueue _ | .pushUnlock => true
  | .popCheck _ | .popWait | .popTake _ | .tryPopTake | .unlock _ => true
  | .closeSet | .closeUnlock => true
  | _ => false

theorem holds_take (x : Shared α) : (take x).2.holds = true := by
  unfold take
  split <;> rfl

def program (α : Type) : Monitor.Program (Shared α) (Pc α) where
  acquire := acquire
  release := release
  inside := inside
  holds := Pc.holds
  holds_acquire := by
    intro c c' h
    cases c <;> cases h <;> exact ⟨rfl, rfl⟩
  holds_release := by
    intro c c' h
    cases c <;> cases h <;> exact ⟨rfl, rfl⟩
  holds_inside := by
    intro x c x' c' h
    cases c with
    | pushCheck item =>
      obtain ⟨rfl, rfl⟩ := Prod.mk.inj (Option.some.inj h)
      exact ⟨rfl, by split <;> rfl⟩
    | popCheck woken =>
      obtain ⟨rfl, rfl⟩ := Prod.mk.inj (Option.some.inj h)
      exact ⟨rfl, by split <;> rfl⟩
    | pushEnqueue item => cases h; exact ⟨rfl, rfl⟩
    | popTake woken => exact ⟨rfl, congrArg (fun p => p.2.holds) (Option.some.inj h) ▸ holds_take x⟩
    | tryPopTake => exact ⟨rfl, congrArg (fun p => p.2.holds) (Option.some.inj h) ▸ holds_take x⟩
    | closeSet => cases h; exact ⟨rfl, rfl⟩
    | _ => cases h
  continues := by
    intro x c h
    cases c <;> first | exact Or.inl rfl | exact Or.inr rfl | cases h

/-! ## Program points, by what they mean for `cv_` -/

def Pc.isWaiting : Pc α → Bool
  | .waiting => true
  | _ => false

def wake : Pc α → Pc α := fun _ => .woken

def Pc.isEnqueued : Pc α → Bool
  | .pushUnlock | .pushNotify => true
  | _ => false

def Pc.isWoken : Pc α → Bool
  | .woken | .popCheck true => true
  | _ => false

/-- A woken consumer that found the predicate true and has not yet taken its item. -/
def Pc.isTaking : Pc α → Bool
  | .popTake true => true
  | _ => false

def Pc.isClosing : Pc α → Bool
  | .closeUnlock | .closeNotify => true
  | _ => false

end

/-! ## The system -/

abbrev State (T α : Type) := Monitor.State T (Shared α) (Pc α)

/-- The steps; `notify_one` names the thread it wakes, if any waits. -/
inductive Act (T α : Type)
  | call (t : T) (op : Op α)
  | acquire (t : T)
  | release (t : T)
  | inside (t : T)
  | notifyOne (t : T) (w : Option T)
  | notifyAll (t : T)
  | spurious (w : T)
  deriving DecidableEq

section
variable {T α : Type} [Fintype T] [DecidableEq T]

def step (s : State T α) : Act T α → Option (State T α)
  | .call t op =>
    match s.pc t with
    | .idle => some (s.goto t (enter op))
    | _ => none
  | .acquire t => (program α).acquireStep s t
  | .release t => (program α).releaseStep s t
  | .inside t => (program α).insideStep s t
  | .notifyOne t w =>
    match s.pc t with
    | .pushNotify =>
      (Monitor.notifyOne Pc.isWaiting wake s.pc w).map fun pc => { s with pc := Function.update pc t .idle }
    | _ => none
  | .notifyAll t =>
    match s.pc t with
    | .closeNotify => some { s with pc := Function.update (Monitor.notifyAll Pc.isWaiting wake s.pc) t .idle }
    | _ => none
  | .spurious w => if (s.pc w).isWaiting then some (s.goto w .woken) else none

def threadSafeQueue (T α : Type) [Fintype T] [DecidableEq T] : System (State T α) (Act T α) where
  init := ⟨{}, none, fun _ => .idle⟩
  step := step

end

end Playground.ThreadSafeQueue
