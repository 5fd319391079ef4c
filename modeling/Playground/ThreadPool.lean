import Mathlib.Data.Fintype.Sum
import Mathlib.Tactic.DeriveFintype
import Playground.Lib.Monitor
import Playground.Lib.Transition

/-!
# The thread pool (`concurrency/thread_pool.cpp`)

`n` workers, any number of threads that call `submit`, and the thread that
runs the destructor, each of which moves from one program point to the next:
it acquires the mutex, reads or writes the queue while it holds it, releases
it, and notifies after that. A task may itself call `submit`, on the worker
that executes it. Which tasks were accepted, who took them and who has run
them is recorded; a task is known by its number in the order of acceptance.
-/

namespace Playground.ThreadPool

inductive Thread (n : Nat) (C : Type)
  | worker (i : Fin n)
  | caller (c : C)
  | destructor
  deriving DecidableEq, Fintype

/-- Program points. A `submit` keeps the number of the task it is called from, if any. -/
inductive Pc (α : Type)
  | lock
  | check
  | wait
  | waiting
  | woken
  | proceed
  | fault -- `front()` of an empty queue
  | leave
  | exited
  | unlock (k : Nat)
  | execute (k : Nat)
  | idle
  | submitLock (task : α) (within : Option Nat)
  | submitCheck (task : α) (within : Option Nat)
  | submitThrow (within : Option Nat)
  | submitEmplace (task : α) (within : Option Nat)
  | submitUnlock (within : Option Nat)
  | submitNotify (within : Option Nat)
  | alive
  | stopLock
  | stopSet
  | stopUnlock
  | stopNotify
  | join (i : Nat) -- the workers before `i` are joined
  deriving DecidableEq

/-- What the mutex protects, and the records. -/
structure Shared (T α : Type) where
  tasks : List α := []
  stop : Bool := false
  accepted : List α := []
  taken : List (T × α) := []
  ran : List (T × Nat) := []

section
variable {T α : Type}

def resume : Option Nat → Pc α
  | none => .idle
  | some k => .execute k

def acquire : Pc α → Option (Pc α)
  | .lock => some .check
  | .woken => some .check
  | .submitLock task within => some (.submitCheck task within)
  | .stopLock => some .stopSet
  | _ => none

def release : Pc α → Option (Pc α)
  | .wait => some .waiting
  | .leave => some .exited
  | .unlock k => some (.execute k)
  | .submitThrow within => some (resume within)
  | .submitUnlock within => some (.submitNotify within)
  | .stopUnlock => some .stopNotify
  | _ => none

/-- The predicate of `wait`. -/
def ready (x : Shared T α) : Bool := x.stop || !x.tasks.isEmpty

/-- `if (stop_ && tasks_.empty()) return;`, else the front of the queue. -/
def proceed (t : T) (x : Shared T α) : Shared T α × Pc α :=
  if x.stop && x.tasks.isEmpty then (x, .leave)
  else
    match x.tasks with
    | [] => (x, .fault)
    | task :: tasks => ({ x with tasks, taken := x.taken ++ [(t, task)] }, .unlock x.taken.length)

def inside (t : T) (x : Shared T α) : Pc α → Option (Shared T α × Pc α)
  | .check => some (x, if ready x then .proceed else .wait)
  | .proceed => some (proceed t x)
  | .fault => some (x, .fault)
  | .submitCheck task within => some (x, if x.stop then .submitThrow within else .submitEmplace task within)
  | .submitEmplace task within =>
    some ({ x with tasks := x.tasks ++ [task], accepted := x.accepted ++ [task] }, .submitUnlock within)
  | .stopSet => some ({ x with stop := true }, .stopUnlock)
  | _ => none

def Pc.holds : Pc α → Bool
  | .check | .wait | .proceed | .fault | .leave | .unlock _ => true
  | .submitCheck _ _ | .submitThrow _ | .submitEmplace _ _ | .submitUnlock _ => true
  | .stopSet | .stopUnlock => true
  | _ => false

theorem holds_resume (within : Option Nat) : (resume within : Pc α).holds = false := by
  cases within <;> rfl

theorem holds_proceed (t : T) (x : Shared T α) : (proceed t x).2.holds = true := by
  unfold proceed
  split
  · rfl
  · split <;> rfl

def program (t : T) : Monitor.Program (Shared T α) (Pc α) where
  acquire := acquire
  release := release
  inside := inside t
  holds := Pc.holds
  holds_acquire := by
    intro c c' h
    cases c <;> cases h <;> exact ⟨rfl, rfl⟩
  holds_release := by
    intro c c' h
    cases c with
    | submitThrow within => cases h; exact ⟨rfl, holds_resume within⟩
    | _ => cases h <;> exact ⟨rfl, rfl⟩
  holds_inside := by
    intro x c x' c' h
    cases c with
    | check =>
      obtain ⟨rfl, rfl⟩ := Prod.mk.inj (Option.some.inj h)
      exact ⟨rfl, by split <;> rfl⟩
    | submitCheck task within =>
      obtain ⟨rfl, rfl⟩ := Prod.mk.inj (Option.some.inj h)
      exact ⟨rfl, by split <;> rfl⟩
    | proceed => exact ⟨rfl, congrArg (fun p => p.2.holds) (Option.some.inj h) ▸ holds_proceed t x⟩
    | _ => cases h <;> exact ⟨rfl, rfl⟩
  continues := by
    intro x c h
    cases c <;> first | exact Or.inl rfl | exact Or.inr rfl | cases h

def Pc.isWaiting : Pc α → Bool
  | .waiting => true
  | _ => false

def wake : Pc α → Pc α := fun _ => .woken

end

/-! ## The system -/

abbrev State (n : Nat) (C α : Type) := Monitor.State (Thread n C) (Shared (Thread n C) α) (Pc α)

/-- The steps; `notify_one` names the thread it wakes, if any waits. -/
inductive Act (n : Nat) (C α : Type)
  | submit (t : Thread n C) (task : α)
  | destroy
  | acquire (t : Thread n C)
  | release (t : Thread n C)
  | inside (t : Thread n C)
  | notifyOne (t : Thread n C) (w : Option (Thread n C))
  | notifyAll
  | run (t : Thread n C)
  | join
  | spurious (w : Thread n C)
  deriving DecidableEq

section
variable {n : Nat} {C α : Type} [Fintype C] [DecidableEq C]

def start : Thread n C → Pc α
  | .worker _ => .lock
  | .caller _ => .idle
  | .destructor => .alive

def step (s : State n C α) : Act n C α → Option (State n C α)
  | .submit t task =>
    match s.pc t with
    | .idle => some (s.goto t (.submitLock task none))
    | .execute k => some (s.goto t (.submitLock task (some k)))
    | _ => none
  | .destroy =>
    match s.pc .destructor with
    | .alive => some (s.goto .destructor .stopLock)
    | _ => none
  | .acquire t => (program t).acquireStep s t
  | .release t => (program t).releaseStep s t
  | .inside t => (program t).insideStep s t
  | .notifyOne t w =>
    match s.pc t with
    | .submitNotify within =>
      (Monitor.notifyOne Pc.isWaiting wake s.pc w).map fun pc =>
        { s with pc := Function.update pc t (resume within) }
    | _ => none
  | .notifyAll =>
    match s.pc .destructor with
    | .stopNotify =>
      some { s with pc := Function.update (Monitor.notifyAll Pc.isWaiting wake s.pc) .destructor (.join 0) }
    | _ => none
  | .run t =>
    match s.pc t with
    | .execute k => some { s.goto t .lock with shared := { s.shared with ran := s.shared.ran ++ [(t, k)] } }
    | _ => none
  | .join =>
    match s.pc .destructor with
    | .join i =>
      if h : i < n then
        match s.pc (.worker ⟨i, h⟩) with
        | .exited => some (s.goto .destructor (.join (i + 1)))
        | _ => none
      else none
    | _ => none
  | .spurious w => if (s.pc w).isWaiting then some (s.goto w .woken) else none

def threadPool (n : Nat) (C α : Type) [Fintype C] [DecidableEq C] : System (State n C α) (Act n C α) where
  init := ⟨{}, none, start⟩
  step := step

end

end Playground.ThreadPool
