import Mathlib.Algebra.BigOperators.Group.Finset.Basic
import Mathlib.Algebra.Order.BigOperators.Group.Finset
import Playground.Lib.Monitor
import Playground.Lib.Transition

/-!
# The spinlock (`SpinLock` of `concurrency/atomics.cpp`)

Each thread takes the lock, increments a counter that is not atomic, in one
step that reads it and one that writes it, and releases the lock, a number of
times. A `test_and_set` that finds the flag set changes nothing and is
repeated. The counter is an exact integer.
-/

namespace Playground.SpinLock

inductive Pc
  | lock
  | read
  | write (value : ℤ)
  | unlock

/-- From the end of `lock` to the start of `unlock`. -/
def Pc.inside : Pc → Bool
  | .lock => false
  | .read => true
  | .write _ => true
  | .unlock => true

/-- `remaining` are the rounds that a thread has not finished. -/
structure State (θ : Type) where
  flag : Bool := false
  sharedVal : ℤ
  remaining : θ → Nat
  pc : θ → Pc := fun _ => .lock

section
variable {θ : Type} [DecidableEq θ]

def State.goto (s : State θ) (t : θ) (pc : Pc) : State θ := { s with pc := Function.update s.pc t pc }

def step (s : State θ) (t : θ) : Option (State θ) :=
  match s.pc t with
  | .lock =>
    if s.remaining t = 0 then none
    else if s.flag then some s
    else some { s.goto t .read with flag := true }
  | .read => some (s.goto t (.write s.sharedVal))
  | .write value => some { s.goto t .unlock with sharedVal := value + 1 }
  | .unlock =>
    some { s.goto t .lock with flag := false, remaining := Function.update s.remaining t (s.remaining t - 1) }

def threads (sharedVal : ℤ) (times : θ → Nat) : System (State θ) θ where
  init := { sharedVal, remaining := times }
  step := step

def State.Done (s : State θ) (t : θ) : Prop := s.remaining t = 0 ∧ s.pc t = .lock

/-! ## One step -/

inductive Turn (s : State θ) (t : θ) : State θ → Prop
  | spin : Turn s t s
  | acquire (hpc : s.pc t = .lock) (hr : 0 < s.remaining t) (hf : s.flag = false) :
      Turn s t { s.goto t .read with flag := true }
  | read (hpc : s.pc t = .read) : Turn s t (s.goto t (.write s.sharedVal))
  | write {value : ℤ} (hpc : s.pc t = .write value) : Turn s t { s.goto t .unlock with sharedVal := value + 1 }
  | release (hpc : s.pc t = .unlock) :
      Turn s t { s.goto t .lock with flag := false, remaining := Function.update s.remaining t (s.remaining t - 1) }

variable {s s' : State θ} {t : θ}

theorem turn_step (h : step s t = some s') : Turn s t s' := by
  unfold step at h
  cases hpc : s.pc t with
  | lock =>
    simp only [hpc] at h
    obtain ⟨hr, hs⟩ := Option.ite_none_left_eq_some.mp h
    split at hs
    · cases hs
      exact .spin
    · rename_i hf
      cases hs
      exact .acquire hpc (Nat.pos_of_ne_zero hr) (Bool.eq_false_of_not_eq_true hf)
  | read =>
    simp only [hpc] at h
    cases h
    exact .read hpc
  | write value =>
    simp only [hpc] at h
    cases h
    exact .write hpc
  | unlock =>
    simp only [hpc] at h
    cases h
    exact .release hpc

/-! ## Mutual exclusion -/

/-- The flag is set for the one thread that is inside. -/
structure Exclusive (s : State θ) : Prop where
  unique : ∀ t u, (s.pc t).inside = true → (s.pc u).inside = true → t = u
  flag : s.flag = true ↔ ∃ t, (s.pc t).inside = true

omit [DecidableEq θ] in
theorem Exclusive.outside (h : Exclusive s) (hf : s.flag = false) (u : θ) : (s.pc u).inside = false := by
  apply Bool.eq_false_of_not_eq_true
  intro hu
  rw [h.flag.mpr ⟨u, hu⟩] at hf
  cases hf

theorem Exclusive.stay (h : Exclusive s) (ht : (s.pc t).inside = true) {pc : Pc} (hpc : pc.inside = true)
    (hs : s'.flag = s.flag) (hs' : s'.pc = Function.update s.pc t pc) : Exclusive s' := by
  have hin : ∀ u, (s'.pc u).inside = (s.pc u).inside := by
    intro u
    rw [hs']
    by_cases hu : u = t
    · rw [hu, Function.update_self, hpc, ht]
    · rw [Function.update_of_ne hu]
  refine ⟨fun u v hu hv => ?_, ?_⟩
  · rw [hin] at hu hv
    exact h.unique u v hu hv
  · simp only [hs, hin]
    exact h.flag

theorem Exclusive.turn (h : Exclusive s) (ht : Turn s t s') : Exclusive s' := by
  cases ht with
  | spin => exact h
  | acquire hpc hr hf =>
    have hall : ∀ u, (Function.update s.pc t .read u).inside = true → u = t := by
      intro u hu
      by_contra hut
      rw [Function.update_of_ne hut, h.outside hf u] at hu
      cases hu
    refine ⟨fun u v hu hv => (hall u hu).trans (hall v hv).symm, iff_of_true rfl ⟨t, ?_⟩⟩
    simp [State.goto, Pc.inside]
  | read hpc => exact h.stay (by rw [hpc]; rfl) rfl rfl rfl
  | write hpc => exact h.stay (by rw [hpc]; rfl) rfl rfl rfl
  | release hpc =>
    have hall : ∀ u, (Function.update s.pc t .lock u).inside = false := by
      intro u
      by_cases hut : u = t
      · rw [hut, Function.update_self]
        rfl
      · rw [Function.update_of_ne hut]
        apply Bool.eq_false_of_not_eq_true
        intro hu
        exact hut (h.unique u t hu (by rw [hpc]; rfl))
    constructor
    · intro u v hu
      exact absurd ((hall u).symm.trans hu) Bool.false_ne_true
    · simp only [State.goto, hall]
      simp

/-! ## The counter -/

/-- The increments that the thread has not made: the last one is made before its round is finished. -/
def State.owed (s : State θ) (t : θ) : ℤ :=
  match s.pc t with
  | .unlock => s.remaining t - 1
  | _ => s.remaining t

/-- A thread that is inside is in a round, and has read the counter as it is. -/
structure InRound (s : State θ) (t : θ) : Prop where
  remaining : (s.pc t).inside = true → 0 < s.remaining t
  value : ∀ v, s.pc t = .write v → v = s.sharedVal

theorem owed_of_ne {u : θ} (h : Turn s t s') (hu : u ≠ t) : s'.owed u = s.owed u := by
  cases h <;> simp [State.owed, State.goto, Function.update_of_ne hu]

theorem InRound.turn (he : Exclusive s) (hi : ∀ u, InRound s u) (h : Turn s t s') (u : θ) : InRound s' u := by
  by_cases hu : u = t
  · subst hu
    have hr := (hi u).remaining
    cases h with
    | spin => exact hi u
    | acquire hpc hr hf => exact ⟨fun _ => hr, fun v hv => by simp [State.goto] at hv⟩
    | read hpc =>
      rw [hpc] at hr
      refine ⟨fun _ => hr rfl, fun v hv => ?_⟩
      simp only [State.goto, Function.update_self, Pc.write.injEq] at hv
      exact hv.symm
    | write hpc =>
      rw [hpc] at hr
      exact ⟨fun _ => hr rfl, fun v hv => by simp [State.goto] at hv⟩
    | release hpc =>
      exact ⟨fun hin => by simp [State.goto, Pc.inside] at hin, fun v hv => by simp [State.goto] at hv⟩
  · have hold := hi u
    cases h with
    | spin => exact hold
    | acquire => exact ⟨by simpa [State.goto, hu] using hold.remaining, by simpa [State.goto, hu] using hold.value⟩
    | read => exact ⟨by simpa [State.goto, hu] using hold.remaining, by simpa [State.goto, hu] using hold.value⟩
    | write hpc =>
      -- No other thread has read the counter.
      refine ⟨by simpa [State.goto, hu] using hold.remaining, fun v hv => absurd ?_ hu⟩
      simp only [State.goto, Function.update_of_ne hu] at hv
      exact he.unique u t (by rw [hv]; rfl) (by rw [hpc]; rfl)
    | release => exact ⟨by simpa [State.goto, hu] using hold.remaining, by simpa [State.goto, hu] using hold.value⟩

theorem counted_turn (hi : InRound s t) (h : Turn s t s') : s'.sharedVal + s'.owed t = s.sharedVal + s.owed t := by
  cases h with
  | spin => rfl
  | acquire hpc => simp [State.owed, State.goto, hpc]
  | read hpc => simp [State.owed, State.goto, hpc]
  | write hpc =>
    have hv := hi.value _ hpc
    simp only [State.owed, State.goto, hpc, Function.update_self, hv]
    omega
  | release hpc =>
    have hr := hi.remaining (by rw [hpc]; rfl)
    simp only [State.owed, State.goto, hpc, Function.update_self]
    omega

omit [DecidableEq θ] in
theorem InRound.owed_nonneg (h : InRound s t) : 0 ≤ s.owed t := by
  unfold State.owed
  split
  · rename_i hpc
    have hr := h.remaining (by rw [hpc]; rfl)
    omega
  · omega

variable [Fintype θ] {start : ℤ} {times : θ → Nat}

structure Inv (start : ℤ) (times : θ → Nat) (s : State θ) : Prop where
  exclusive : Exclusive s
  round : ∀ t, InRound s t
  counted : s.sharedVal + ∑ t, s.owed t = start + ∑ t, (times t : ℤ)

theorem Inv.turn (hi : Inv start times s) (h : Turn s t s') : Inv start times s' where
  exclusive := hi.exclusive.turn h
  round := InRound.turn hi.exclusive hi.round h
  counted := by
    rw [← hi.counted]
    apply Monitor.sum_balance fun u hu => owed_of_ne h hu
    exact counted_turn (hi.round t) h

theorem inv_init (start : ℤ) (times : θ → Nat) : Inv start times (threads start times).init where
  exclusive := ⟨nofun, by simp [threads, Pc.inside]⟩
  round _ := ⟨nofun, nofun⟩
  counted := rfl

/-- At most one thread is inside, the flag is set exactly while one is, and no increment is lost. -/
theorem spinLock_reachable (start : ℤ) (times : θ → Nat) (s : State θ) (h : (threads start times).Reachable s) :
    (∀ t u, (s.pc t).inside = true → (s.pc u).inside = true → t = u) ∧
      (s.flag = true ↔ ∃ t, (s.pc t).inside = true) ∧ s.sharedVal ≤ start + ∑ t, (times t : ℤ) ∧
      ((∀ t, s.Done t) → s.sharedVal = start + ∑ t, (times t : ℤ)) := by
  have hi : Inv start times s := h.inv (inv_init start times) fun s t s' hi hs => hi.turn (turn_step hs)
  refine ⟨hi.exclusive.unique, hi.exclusive.flag, ?_, fun hdone => ?_⟩
  · have hpos : 0 ≤ ∑ t, s.owed t := Finset.sum_nonneg fun t _ => (hi.round t).owed_nonneg
    have hc := hi.counted
    omega
  · have hzero : ∑ t, s.owed t = 0 := Finset.sum_eq_zero fun t _ => by simp [State.owed, (hdone t).1, (hdone t).2]
    have hc := hi.counted
    omega

end

def twoThreads : System (State Bool) Bool := threads 0 fun _ => 1

def twoThreadsOrder : List Bool := [false, true, false, false, true, false, true, true, true, true]

/-- The second thread spins while the first one is inside. -/
theorem spinLock_reachable_two :
    ∃ s, twoThreads.run twoThreads.init twoThreadsOrder = some s ∧ s.sharedVal = 2 := by
  obtain ⟨s, hs⟩ : ∃ s, twoThreads.run twoThreads.init twoThreadsOrder = some s := ⟨_, rfl⟩
  refine ⟨s, hs, ?_⟩
  apply (spinLock_reachable 0 (fun _ : Bool => 1) s (System.reachable_of_run twoThreadsOrder .init hs)).2.2.2
  obtain rfl := Option.some.inj hs
  intro t
  cases t <;> exact ⟨rfl, rfl⟩

end Playground.SpinLock
