import Mathlib.Data.Fintype.Card
import Playground.ThreadPool

/-!
# Every accepted task runs once

What a thread can do by itself is said once (`Move`); the invariants follow
from that. A task that was taken is in the hands of the worker that took it
until it has run, so the two are counted together (`Safe.once`). While tasks
are queued and some worker waits, somebody else will see to them: a worker
that does not wait, or a `submit` that has yet to notify (`Awake`).
-/

namespace Playground.ThreadPool

open Monitor

/-! ## Program points -/

inductive Role
  | worker
  | caller
  | destructor

def Thread.role {n : Nat} {C : Type} : Thread n C → Role
  | .worker _ => .worker
  | .caller _ => .caller
  | .destructor => .destructor

section
variable {T α : Type}

def roleWithin : Option Nat → Role
  | none => .caller
  | some _ => .worker

def Pc.role : Pc α → Role
  | .lock | .check | .wait | .waiting | .woken | .proceed | .fault | .leave | .exited | .unlock _
  | .execute _ => .worker
  | .idle => .caller
  | .submitLock _ within | .submitCheck _ within | .submitThrow within => roleWithin within
  | .submitEmplace _ within | .submitUnlock within | .submitNotify within => roleWithin within
  | .alive | .stopLock | .stopSet | .stopUnlock | .stopNotify | .join _ => .destructor

def Pc.task : Pc α → Option Nat
  | .unlock k | .execute k => some k
  | .submitLock _ within | .submitCheck _ within | .submitThrow within => within
  | .submitEmplace _ within | .submitUnlock within | .submitNotify within => within
  | _ => none

/-- What is known of the shared state at a program point. -/
def Point (x : Shared T α) : Pc α → Prop
  | .wait => ready x = false
  | .proceed => ready x = true
  | .fault => False
  | .leave | .exited => x.stop = true ∧ x.tasks = []
  | .submitEmplace _ _ => x.stop = false
  | .stopUnlock | .stopNotify | .join _ => x.stop = true
  | _ => True

def Pc.notifies : Pc α → Bool
  | .submitNotify _ | .stopNotify => true
  | _ => false

def Pc.isPending : Pc α → Bool
  | .submitUnlock _ | .submitNotify _ | .stopUnlock | .stopNotify => true
  | _ => false

/-- A thread that will see to the tasks in the queue, or have a worker woken to do so. -/
def Pc.isCredit : Pc α → Bool
  | .lock | .check | .wait | .woken | .proceed | .fault | .leave | .unlock _ | .execute _ => true
  | .submitUnlock _ | .submitNotify _ => true
  | .submitLock _ within | .submitCheck _ within | .submitThrow within | .submitEmplace _ within => within.isSome
  | _ => false

def Pc.isClosing : Pc α → Bool
  | .stopUnlock | .stopNotify => true
  | _ => false

@[simp] theorem role_resume (within : Option Nat) : (resume within : Pc α).role = roleWithin within := by
  cases within <;> rfl

@[simp] theorem task_resume (within : Option Nat) : (resume within : Pc α).task = within := by
  cases within <;> rfl

theorem point_resume (x : Shared T α) (within : Option Nat) : Point x (resume within) := by
  cases within <;> trivial

@[simp] theorem isWaiting_resume (within : Option Nat) : (resume within : Pc α).isWaiting = false := by
  cases within <;> rfl

@[simp] theorem isCredit_resume (within : Option Nat) : (resume within : Pc α).isCredit = within.isSome := by
  cases within <;> rfl

@[simp] theorem isClosing_resume (within : Option Nat) : (resume within : Pc α).isClosing = false := by
  cases within <;> rfl

theorem eq_waiting {c : Pc α} (h : c.isWaiting = true) : c = .waiting := by
  cases c <;> first | rfl | cases h

theorem ready_eq_false {x : Shared T α} : ready x = false ↔ x.stop = false ∧ x.tasks = [] := by
  simp [ready]

def Shared.runsOf (x : Shared T α) (k : Nat) : List T := (x.ran.filter fun r => r.2 = k).map Prod.fst

theorem getElem?_append_of_some {β : Type*} {l : List β} {k : Nat} {b : β} (h : l[k]? = some b) (l' : List β) :
    (l ++ l')[k]? = some b := by
  rw [List.getElem?_append_left (List.getElem?_eq_some_iff.mp h).1, h]

/-! ## Moves -/

inductive Move (t : T) (x : Shared T α) : Pc α → Shared T α → Pc α → Prop
  | lock : Move t x .lock x .check
  | relock : Move t x .woken x .check
  | ready (h : ready x = true) : Move t x .check x .proceed
  | wait (h : ThreadPool.ready x = false) : Move t x .check x .wait
  | sleep : Move t x .wait x .waiting
  | wake : Move t x .waiting x .woken
  | leave (hs : x.stop = true) (ht : x.tasks = []) : Move t x .proceed x .leave
  | exit : Move t x .leave x .exited
  | fault (hs : x.stop = false) (ht : x.tasks = []) : Move t x .proceed x .fault
  | spin : Move t x .fault x .fault
  | take (task : α) (tasks : List α) (ht : x.tasks = task :: tasks) :
    Move t x .proceed { x with tasks, taken := x.taken ++ [(t, task)] } (.unlock x.taken.length)
  | unlock (k : Nat) : Move t x (.unlock k) x (.execute k)
  | run (k : Nat) : Move t x (.execute k) { x with ran := x.ran ++ [(t, k)] } .lock
  | submit (task : α) (within : Option Nat) : Move t x (resume within) x (.submitLock task within)
  | submitLock (task : α) (within : Option Nat) : Move t x (.submitLock task within) x (.submitCheck task within)
  | refuse (task : α) (within : Option Nat) (hs : x.stop = true) :
    Move t x (.submitCheck task within) x (.submitThrow within)
  | throw (within : Option Nat) : Move t x (.submitThrow within) x (resume within)
  | accept (task : α) (within : Option Nat) (hs : x.stop = false) :
    Move t x (.submitCheck task within) x (.submitEmplace task within)
  | emplace (task : α) (within : Option Nat) : Move t x (.submitEmplace task within)
    { x with tasks := x.tasks ++ [task], accepted := x.accepted ++ [task] } (.submitUnlock within)
  | submitUnlock (within : Option Nat) : Move t x (.submitUnlock within) x (.submitNotify within)
  | notifyOne (within : Option Nat) : Move t x (.submitNotify within) x (resume within)
  | destroy : Move t x .alive x .stopLock
  | stopLock : Move t x .stopLock x .stopSet
  | stop : Move t x .stopSet { x with stop := true } .stopUnlock
  | stopUnlock : Move t x .stopUnlock x .stopNotify
  | notifyAll : Move t x .stopNotify x (.join 0)
  | join (i : Nat) : Move t x (.join i) x (.join (i + 1))

theorem move_acquire (t : T) (x : Shared T α) {c c' : Pc α} (h : acquire c = some c') : Move t x c x c' := by
  cases c with
  | lock => cases h; exact .lock
  | woken => cases h; exact .relock
  | submitLock task within => cases h; exact .submitLock task within
  | stopLock => cases h; exact .stopLock
  | _ => cases h

theorem move_release (t : T) (x : Shared T α) {c c' : Pc α} (h : release c = some c') : Move t x c x c' := by
  cases c with
  | wait => cases h; exact .sleep
  | leave => cases h; exact .exit
  | unlock k => cases h; exact .unlock k
  | submitThrow within => cases h; exact .throw within
  | submitUnlock within => cases h; exact .submitUnlock within
  | stopUnlock => cases h; exact .stopUnlock
  | _ => cases h

theorem move_proceed (t : T) (x : Shared T α) : Move t x .proceed (proceed t x).1 (proceed t x).2 := by
  unfold proceed
  cases ht : x.tasks with
  | nil =>
    cases hs : x.stop with
    | false => exact .fault hs ht
    | true => exact .leave hs ht
  | cons task tasks =>
    simp only [List.isEmpty_cons, Bool.and_false, Bool.false_eq_true, if_false]
    exact .take task tasks ht

theorem move_inside {t : T} {x x' : Shared T α} {c c' : Pc α} (h : inside t x c = some (x', c')) :
    Move t x c x' c' := by
  cases c with
  | check =>
    obtain ⟨rfl, rfl⟩ := Prod.mk.inj (Option.some.inj h)
    cases hr : ready x with
    | false => exact .wait hr
    | true => exact .ready hr
  | proceed =>
    obtain ⟨rfl, rfl⟩ := Prod.mk.inj (Option.some.inj h)
    exact move_proceed t x
  | fault => cases h; exact .spin
  | submitCheck task within =>
    obtain ⟨rfl, rfl⟩ := Prod.mk.inj (Option.some.inj h)
    cases hs : x.stop with
    | false => exact .accept task within hs
    | true => exact .refuse task within hs
  | submitEmplace task within => cases h; exact .emplace task within
  | stopSet => cases h; exact .stop
  | _ => cases h

section
variable {t : T} {x x' : Shared T α} {c c' d : Pc α} (h : Move t x c x' c')

include h

theorem Move.role : c'.role = c.role := by
  cases h with
  | submit task within => exact (role_resume within).symm
  | throw within => exact role_resume within
  | notifyOne within => exact role_resume within
  | _ => rfl

theorem Move.point (hc : Point x c) : Point x' c' := by
  cases h with
  | ready hr => exact hr
  | wait hr => exact hr
  | leave hs ht => exact ⟨hs, ht⟩
  | exit => exact hc
  | fault hs ht =>
    rw [Point, ThreadPool.ready, hs, ht] at hc
    cases hc
  | spin => exact hc
  | throw within => exact point_resume x within
  | notifyOne within => exact point_resume x within
  | accept task within hs => exact hs
  | stop => exact rfl
  | stopUnlock => exact hc
  | notifyAll => exact hc
  | join i => exact hc
  | _ => trivial

/-- A thread outside the critical section loses nothing it knows of the shared state. -/
theorem Move.frame (hc : Point x c) (hd : Point x d) (hout : c.holds = true → d.holds = false) : Point x' d := by
  cases h with
  | take task tasks ht =>
    cases d with
    | exited =>
      rw [hd.2] at ht
      cases ht
    | _ => first | exact hd | exact absurd (hout rfl) (by simp [Pc.holds])
  | emplace task within =>
    cases d with
    | exited =>
      rw [Point, hd.1] at hc
      cases hc
    | _ => first | exact hd | exact absurd (hout rfl) (by simp [Pc.holds])
  | stop =>
    cases d with
    | exited => exact ⟨rfl, hd.2⟩
    | _ => first | exact hd | exact rfl | exact absurd (hout rfl) (by simp [Pc.holds])
  | run k => cases d <;> exact hd
  | _ => exact hd

theorem Move.taken : x'.taken = x.taken ∨ ∃ task, c.role = .worker ∧ x'.taken = x.taken ++ [(t, task)] := by
  cases h with
  | take task tasks ht => exact Or.inr ⟨task, rfl, rfl⟩
  | _ => exact Or.inl rfl

theorem Move.ne_exited : c ≠ .exited := by
  intro heq
  subst heq
  generalize hc : (Pc.exited : Pc α) = c at h
  cases h with
  | submit task within => cases within <;> cases hc
  | _ => cases hc

theorem Move.join_cases {j : Nat} (hj : c' = .join j) : j = 0 ∨ ∃ i, c = .join i ∧ j = i + 1 := by
  cases h with
  | throw within => cases within <;> cases hj
  | notifyOne within => cases within <;> cases hj
  | notifyAll => cases hj; exact Or.inl rfl
  | join i => cases hj; exact Or.inr ⟨i, rfl, rfl⟩
  | _ => cases hj

theorem Move.fifo (hf : x.accepted = x.taken.map Prod.snd ++ x.tasks) :
    x'.accepted = x'.taken.map Prod.snd ++ x'.tasks := by
  cases h with
  | take task tasks ht => simp [hf, ht]
  | emplace task within => simp [hf]
  | _ => exact hf

theorem Move.once (k : Nat) :
    (x'.runsOf k).length + (c'.task == some k).toNat + (decide (k < x.taken.length)).toNat =
      (x.runsOf k).length + (c.task == some k).toNat + (decide (k < x'.taken.length)).toNat := by
  cases h with
  | take task tasks ht =>
    show (x.runsOf k).length + (some x.taken.length == some k).toNat + _ = (x.runsOf k).length + 0 + _
    rw [List.length_append, List.length_singleton]
    rcases Nat.lt_trichotomy k x.taken.length with h | rfl | h
    · rw [beq_false_of_ne (fun e => h.ne' (Option.some.inj e)), decide_eq_true h,
        decide_eq_true (Nat.lt_succ_of_lt h)]
      rfl
    · rw [beq_self_eq_true, decide_eq_false (Nat.lt_irrefl _), decide_eq_true (Nat.lt_succ_self _)]
      rfl
    · rw [beq_false_of_ne (fun e => h.ne (Option.some.inj e)), decide_eq_false (Nat.not_lt.mpr h.le),
        decide_eq_false (Nat.not_lt.mpr h)]
      rfl
  | run k' =>
    by_cases hk : k' = k <;> simp [Pc.task, Shared.runsOf, hk]
  | submit task within => rw [task_resume]; rfl
  | throw within => rw [task_resume]; rfl
  | notifyOne within => rw [task_resume]; rfl
  | _ => rfl

theorem Move.hands (hc : ∀ k, c.task = some k → ∃ task, x.taken[k]? = some (t, task)) :
    ∀ k, c'.task = some k → ∃ task, x'.taken[k]? = some (t, task) := by
  cases h with
  | take task tasks ht =>
    intro k hk
    obtain rfl := Option.some.inj hk
    exact ⟨task, by simp⟩
  | run k' => intro k hk; cases hk
  | submit task within => exact task_resume (α := α) within ▸ hc
  | throw within => exact (task_resume within).symm ▸ hc
  | notifyOne within => exact (task_resume within).symm ▸ hc
  | _ => exact hc

theorem Move.ran (hc : ∀ k, c.task = some k → ∃ task, x.taken[k]? = some (t, task))
    (hr : ∀ u k, (u, k) ∈ x.ran → ∃ task, x.taken[k]? = some (u, task)) :
    ∀ u k, (u, k) ∈ x'.ran → ∃ task, x'.taken[k]? = some (u, task) := by
  cases h with
  | take task tasks ht =>
    intro u k hu
    obtain ⟨task', hk⟩ := hr u k hu
    exact ⟨task', getElem?_append_of_some hk _⟩
  | run k' =>
    intro u k hu
    rcases List.mem_append.mp hu with hu | hu
    · exact hr u k hu
    · obtain ⟨rfl, rfl⟩ := Prod.mk.inj (List.mem_singleton.mp hu)
      exact hc k rfl
  | _ => exact hr

end

end

/-! ## Safety -/

section
variable {n : Nat} {C α : Type}

/-- What is known at the program point `c` of thread `t`. -/
structure At (t : Thread n C) (x : Shared (Thread n C) α) (c : Pc α) : Prop where
  role : c.role = t.role
  point : Point x c
  hands : ∀ k, c.task = some k → ∃ task, x.taken[k]? = some (t, task)

theorem At.move {t : Thread n C} {x x' : Shared (Thread n C) α} {c c' : Pc α} (h : At t x c)
    (hm : Move t x c x' c') :
    At t x' c' :=
  ⟨hm.role.trans h.role, hm.point h.point, hm.hands h.hands⟩

theorem At.frame {t u : Thread n C} {x x' : Shared (Thread n C) α} {c c' d : Pc α} (h : At u x d)
    (hm : Move t x c x' c') (hc : At t x c) (hout : c.holds = true → d.holds = false) : At u x' d where
  role := h.role
  point := hm.frame hc.point h.point hout
  hands := by
    intro k hk
    obtain ⟨task, hget⟩ := h.hands k hk
    rcases hm.taken with he | ⟨task', _, he⟩
    · exact ⟨task, he ▸ hget⟩
    · exact ⟨task, he ▸ getElem?_append_of_some hget _⟩

variable [Fintype C]

def Exclusive (s : State n C α) : Prop := ∀ t, s.owner = some t ↔ (s.pc t).holds = true

structure Safe (s : State n C α) : Prop where
  exclusive : Exclusive s
  points : ∀ t, At t s.shared (s.pc t)
  fifo : s.shared.accepted = s.shared.taken.map Prod.snd ++ s.shared.tasks
  once : ∀ k, (s.shared.runsOf k).length + count (fun c => c.task == some k) s.pc =
    (decide (k < s.shared.taken.length)).toNat
  takers : ∀ p ∈ s.shared.taken, p.1.role = .worker
  ran : ∀ t k, (t, k) ∈ s.shared.ran → ∃ task, s.shared.taken[k]? = some (t, task)
  joined : ∀ i j, s.pc .destructor = .join j → i.val < j → s.pc (.worker i) = .exited

variable [DecidableEq C]

theorem safe_init : Safe (threadPool n C α).init where
  exclusive := by
    intro t
    cases t <;> exact iff_of_false (by simp [threadPool]) (by simp [threadPool, start, Pc.holds])
  points := by
    intro t
    cases t <;> exact ⟨rfl, trivial, by simp [threadPool, start, Pc.task]⟩
  fifo := rfl
  once := by
    intro k
    have hnone : count (fun c => c.task == some k) (start : Thread n C → Pc α) = 0 :=
      count_eq_zero.mpr fun t => by cases t <;> rfl
    simp [threadPool, Shared.runsOf, hnone]
  takers := by simp [threadPool]
  ran := by simp [threadPool]
  joined := by simp [threadPool, start]

section
variable {s : State n C α} {t : Thread n C}

/-- A worker that has been joined has exited, and does not move. -/
theorem Safe.move_joined (h : Safe s) {x : Shared (Thread n C) α} {c : Pc α} (hm : Move t s.shared (s.pc t) x c)
    (hjoin : ∀ i, s.pc t = .join i → ∃ hi : i < n, s.pc (.worker ⟨i, hi⟩) = .exited) (i : Fin n) (j : Nat)
    (hj : Function.update s.pc t c .destructor = .join j) (hlt : i.val < j) :
    Function.update s.pc t c (.worker i) = .exited := by
  by_cases hd : t = .destructor
  · subst hd
    rw [Function.update_self] at hj
    rw [Function.update_of_ne (by simp)]
    rcases hm.join_cases hj with rfl | ⟨k, hk, rfl⟩
    · exact absurd hlt (Nat.not_lt_zero _)
    · rcases Nat.lt_succ_iff_lt_or_eq.mp hlt with hlt | heq
      · exact h.joined i k hk hlt
      · subst heq
        obtain ⟨_, hi⟩ := hjoin i.val hk
        exact hi
  · rw [Function.update_of_ne (Ne.symm hd)] at hj
    have hexited := h.joined i j hj hlt
    have hne : Thread.worker i ≠ t := by
      intro heq
      subst heq
      exact hm.ne_exited hexited
    rw [Function.update_of_ne hne]
    exact hexited

theorem Safe.move (h : Safe s) {x : Shared (Thread n C) α} {c : Pc α} {o : Option (Thread n C)}
    (hm : Move t s.shared (s.pc t) x c) (hex : Exclusive { s.goto t c with shared := x, owner := o })
    (hjoin : ∀ i, s.pc t = .join i → ∃ hi : i < n, s.pc (.worker ⟨i, hi⟩) = .exited) :
    Safe { s.goto t c with shared := x, owner := o } where
  exclusive := hex
  points := by
    intro u
    show At u x (Function.update s.pc t c u)
    by_cases hut : u = t
    · subst hut
      rw [Function.update_self]
      exact (h.points u).move hm
    · rw [Function.update_of_ne hut]
      apply (h.points u).frame hm (h.points t)
      intro ht
      rw [← Bool.not_eq_true, ← h.exclusive u, (h.exclusive t).mpr ht]
      exact fun e => hut (Option.some.inj e).symm
  fifo := hm.fifo h.fifo
  once := by
    intro k
    have hcount := count_update (fun c => c.task == some k) s.pc t c
    have honce := hm.once k
    have hold := h.once k
    show (x.runsOf k).length + count (fun c => c.task == some k) (Function.update s.pc t c) = _
    simp only at hcount ⊢
    omega
  takers := by
    intro p hp
    change p ∈ x.taken at hp
    rcases hm.taken with he | ⟨task, hrole, he⟩
    · exact h.takers p (he ▸ hp)
    · rcases List.mem_append.mp (he ▸ hp) with hp | hp
      · exact h.takers p hp
      · obtain rfl := List.mem_singleton.mp hp
        exact (h.points t).role.symm.trans hrole
  ran := hm.ran (h.points t).hands h.ran
  joined := h.move_joined hm hjoin

omit [Fintype C] [DecidableEq C] in
theorem woken_congr {pc pc' : Thread n C → Pc α} (hpc : ∀ u, pc' u = pc u ∨ pc u = .waiting ∧ pc' u = .woken)
    {f : Pc α → Bool} (hf : f .woken = f .waiting) (u : Thread n C) : f (pc' u) = f (pc u) := by
  rcases hpc u with he | ⟨hw, he⟩
  · rw [he]
  · rw [he, hw, hf]

omit [DecidableEq C] in
theorem Safe.woken (h : Safe s) {pc : Thread n C → Pc α}
    (hpc : ∀ u, pc u = s.pc u ∨ s.pc u = .waiting ∧ pc u = .woken) : Safe { s with pc } where
  exclusive := by
    intro u
    rw [h.exclusive u]
    show (s.pc u).holds = true ↔ (pc u).holds = true
    rw [woken_congr (f := Pc.holds) hpc rfl u]
  points := by
    intro u
    show At u s.shared (pc u)
    have hold := h.points u
    rcases hpc u with he | ⟨hw, he⟩
    · rw [he]
      exact hold
    · rw [hw] at hold
      rw [he]
      exact hold.move .wake
  fifo := h.fifo
  once := by
    intro k
    rw [← h.once k]
    congr 1
    apply count_congr
    intro u
    exact woken_congr (f := fun x => x.task == some k) hpc rfl u
  takers := h.takers
  ran := h.ran
  joined := by
    intro i j hj hlt
    have hd : pc .destructor = s.pc .destructor := by
      rcases hpc .destructor with he | ⟨_, he⟩
      · exact he
      · exact absurd (he.symm.trans hj) (by simp)
    have hexited := h.joined i j (hd ▸ hj) hlt
    rcases hpc (.worker i) with he | ⟨hw, _⟩
    · exact he.trans hexited
    · rw [hexited] at hw
      cases hw

/-! ## Steps -/

variable {s' : State n C α}

omit [Fintype C] in
theorem keep (h : Exclusive s) {c : Pc α} (hc : c.holds = (s.pc t).holds) {x : Shared (Thread n C) α} :
    Exclusive { s.goto t c with shared := x } :=
  Program.Exclusive.keep (P := program t) h hc x

inductive Step (s : State n C α) : State n C α → Prop
  | move {t : Thread n C} {x : Shared (Thread n C) α} {c : Pc α} {o : Option (Thread n C)}
    (hm : Move t s.shared (s.pc t) x c) (hn : (s.pc t).notifies = false)
    (hjoin : ∀ i, s.pc t = .join i → ∃ hi : i < n, s.pc (.worker ⟨i, hi⟩) = .exited)
    (hex : Exclusive s → Exclusive { s.goto t c with shared := x, owner := o }) :
    Step s { s.goto t c with shared := x, owner := o }
  | notifyOne {t : Thread n C} {within : Option Nat} {w : Option (Thread n C)} {pc : Thread n C → Pc α}
    (hp : s.pc t = .submitNotify within) (hn : Monitor.notifyOne Pc.isWaiting ThreadPool.wake s.pc w = some pc) :
    Step s { s with pc := Function.update pc t (resume within) }
  | notifyAll (hp : s.pc .destructor = .stopNotify) : Step s { s with
    pc := Function.update (Monitor.notifyAll Pc.isWaiting ThreadPool.wake s.pc) .destructor (.join 0) }

theorem step_move {c₀ c : Pc α} {x : Shared (Thread n C) α} (hp : s.pc t = c₀) (hm : Move t s.shared c₀ x c)
    (hn : c₀.notifies = false) (hh : c.holds = c₀.holds)
    (hjoin : ∀ i, c₀ = .join i → ∃ hi : i < n, s.pc (.worker ⟨i, hi⟩) = .exited) :
    Step s { s.goto t c with shared := x } := by
  subst hp
  exact .move hm hn hjoin fun he => keep he hh

theorem step_cases {a : Act n C α} (h : step s a = some s') : Step s s' := by
  unfold step at h
  cases a with
  | submit t task =>
    cases hp : s.pc t with
    | idle =>
      simp only [hp, Option.some.injEq] at h
      exact h ▸ step_move hp (.submit task none) rfl rfl (by simp)
    | execute k =>
      simp only [hp, Option.some.injEq] at h
      exact h ▸ step_move hp (.submit task (some k)) rfl rfl (by simp)
    | _ => simp only [hp, reduceCtorEq] at h
  | destroy =>
    cases hp : s.pc .destructor with
    | alive =>
      simp only [hp, Option.some.injEq] at h
      exact h ▸ step_move hp .destroy rfl rfl (by simp)
    | _ => simp only [hp, reduceCtorEq] at h
  | acquire t =>
    have hex : Exclusive s → Exclusive s' := fun he => Program.Exclusive.acquireStep (P := program t) he h
    obtain ⟨c, _, hc, rfl⟩ := Program.acquireStep_some h
    apply Step.move (move_acquire t s.shared hc) _ _ hex
    · cases hp : s.pc t <;> rw [hp] at hc <;> cases hc <;> rfl
    · intro i hi
      rw [hi] at hc
      cases hc
  | release t =>
    have hex : Exclusive s → Exclusive s' := fun he => Program.Exclusive.releaseStep (P := program t) he h
    obtain ⟨c, hc, rfl⟩ := Program.releaseStep_some h
    apply Step.move (move_release t s.shared hc) _ _ hex
    · cases hp : s.pc t <;> rw [hp] at hc <;> cases hc <;> rfl
    · intro i hi
      rw [hi] at hc
      cases hc
  | inside t =>
    have hex : Exclusive s → Exclusive s' := fun he => Program.Exclusive.insideStep (P := program t) he h
    obtain ⟨x, c, hc, rfl⟩ := Program.insideStep_some h
    apply Step.move (move_inside hc) _ _ hex
    · cases hp : s.pc t <;> rw [hp] at hc <;> first | rfl | cases hc
    · intro i hi
      rw [hi] at hc
      cases hc
  | notifyOne t w =>
    cases hp : s.pc t with
    | submitNotify within =>
      simp only [hp, Option.map_eq_some_iff] at h
      obtain ⟨pc, hn, rfl⟩ := h
      exact .notifyOne hp hn
    | _ => simp only [hp, reduceCtorEq] at h
  | notifyAll =>
    cases hp : s.pc .destructor with
    | stopNotify =>
      simp only [hp, Option.some.injEq] at h
      exact h ▸ .notifyAll hp
    | _ => simp only [hp, reduceCtorEq] at h
  | run t =>
    cases hp : s.pc t with
    | execute k =>
      simp only [hp, Option.some.injEq] at h
      exact h ▸ step_move hp (.run k) rfl rfl (by simp)
    | _ => simp only [hp, reduceCtorEq] at h
  | join =>
    cases hp : s.pc .destructor with
    | join i =>
      simp only [hp] at h
      split at h
      · rename_i hi
        cases hw : s.pc (.worker ⟨i, hi⟩) with
        | exited =>
          simp only [hw, Option.some.injEq] at h
          subst h
          apply step_move hp (.join i) rfl rfl
          intro j hj
          obtain rfl := Pc.join.inj hj
          exact ⟨hi, hw⟩
        | _ => simp only [hw, reduceCtorEq] at h
      · cases h
    | _ => simp only [hp, reduceCtorEq] at h
  | spurious w =>
    simp only [Option.ite_none_right_eq_some, Option.some.injEq] at h
    obtain ⟨hw, rfl⟩ := h
    exact step_move (eq_waiting hw) .wake rfl rfl (by simp)

theorem Safe.notified (h : Safe s) {pc : Thread n C → Pc α} {c : Pc α}
    (hpc : ∀ u, pc u = s.pc u ∨ (s.pc u).isWaiting = true ∧ pc u = ThreadPool.wake (s.pc u))
    (ht : (s.pc t).notifies = true) (hm : Move t s.shared (s.pc t) s.shared c) (hc : c.holds = false) :
    Safe { s with pc := Function.update pc t c } := by
  have hpt : pc t = s.pc t := by
    rcases hpc t with he | ⟨hw, _⟩
    · exact he
    · rw [eq_waiting hw] at ht
      cases ht
  have hw := h.woken fun u => (hpc u).imp_right fun ⟨hw, he⟩ => ⟨eq_waiting hw, he⟩
  have hout : (s.pc t).holds = false := by
    cases hp : s.pc t <;> rw [hp] at ht <;> first | rfl | cases ht
  have hholds : c.holds = (pc t).holds := by rw [hc, hpt, hout]
  have hex := keep (t := t) (x := s.shared) hw.exclusive hholds
  have hm : Move t s.shared (pc t) s.shared c := hpt.symm ▸ hm
  apply hw.move hm hex
  intro i hi
  rw [hpt.symm.trans hi] at ht
  cases ht

theorem safe_step {a : Act n C α} (h : Safe s) (hs : step s a = some s') : Safe s' := by
  cases step_cases hs with
  | move hm hn hjoin hex => exact h.move hm (hex h.exclusive) hjoin
  | notifyOne hp hn => exact h.notified (notifyOne_woken hn) (by rw [hp]; rfl) (hp ▸ .notifyOne _) (holds_resume _)
  | notifyAll hp =>
    exact h.notified (notifyAll_woken Pc.isWaiting ThreadPool.wake s.pc) (by rw [hp]; rfl) (hp ▸ .notifyAll) rfl

end

end

/-! ## Wakeups -/

section
variable {T α : Type} {t : T} {x x' : Shared T α} {c c' : Pc α} (h : Move t x c x' c') (hc : Point x c)
  (hn : c.notifies = false)

include h hc hn

/-- A thread gives up seeing to the queue only when there is nothing to see to. -/
theorem Move.credit (hs : x'.stop = false) (ht : x'.tasks ≠ []) :
    c'.isCredit = true ∨
      x.stop = false ∧ x.tasks ≠ [] ∧ c'.isWaiting = false ∧ c.isCredit = c'.isCredit := by
  cases h with
  | sleep => exact absurd (ready_eq_false.mp hc).2 ht
  | exit => exact absurd hc.2 ht
  | submit task within => exact Or.inr ⟨hs, ht, rfl, isCredit_resume within⟩
  | throw within => exact Or.inr ⟨hs, ht, isWaiting_resume within, (isCredit_resume within).symm⟩
  | notifyOne within => cases hn
  | notifyAll => cases hn
  | stop => cases hs
  | submitLock task within => exact Or.inr ⟨hs, ht, rfl, rfl⟩
  | refuse task within hr => exact Or.inr ⟨hs, ht, rfl, rfl⟩
  | accept task within hr => exact Or.inr ⟨hs, ht, rfl, rfl⟩
  | destroy => exact Or.inr ⟨hs, ht, rfl, rfl⟩
  | stopLock => exact Or.inr ⟨hs, ht, rfl, rfl⟩
  | stopUnlock => exact Or.inr ⟨hs, ht, rfl, rfl⟩
  | join i => exact Or.inr ⟨hs, ht, rfl, rfl⟩
  | _ => exact Or.inl rfl

theorem Move.closing (hs : x'.stop = true) :
    c'.isClosing = true ∨ x.stop = true ∧ c'.isWaiting = false ∧ c.isClosing = c'.isClosing := by
  cases h with
  | sleep =>
    rw [(ready_eq_false.mp hc).1] at hs
    cases hs
  | submit task within => exact Or.inr ⟨hs, rfl, isClosing_resume within⟩
  | throw within => exact Or.inr ⟨hs, isWaiting_resume within, (isClosing_resume within).symm⟩
  | notifyOne within => cases hn
  | notifyAll => cases hn
  | stop => exact Or.inl rfl
  | _ => exact Or.inr ⟨hs, rfl, rfl⟩

end

section
variable {n : Nat} {C α : Type} [Fintype C]

structure Awake (s : State n C α) : Prop where
  wake : s.shared.stop = false → s.shared.tasks ≠ [] → Covered Pc.isWaiting Pc.isCredit 1 s.pc
  notify : s.shared.stop = true → Covered Pc.isWaiting Pc.isClosing 1 s.pc

variable [DecidableEq C] {s s' : State n C α} {t : Thread n C}

theorem awake_init : Awake (threadPool n C α).init where
  wake := fun _ h => absurd rfl h
  notify := by intro h; cases h

theorem Awake.move (h : Awake s) {x : Shared (Thread n C) α} {c : Pc α} {o : Option (Thread n C)}
    (hm : Move t s.shared (s.pc t) x c) (ht : Point s.shared (s.pc t)) (hn : (s.pc t).notifies = false) :
    Awake { s.goto t c with shared := x, owner := o } where
  wake := by
    intro hs htasks
    rcases hm.credit ht hn hs htasks with hc | ⟨hs, htasks, hw, hc⟩
    · exact .of_credit hc
    · exact (h.wake hs htasks).update (Or.inr ⟨hw, Or.inr (by rw [hc])⟩)
  notify := by
    intro hs
    rcases hm.closing ht hn hs with hc | ⟨hs, hw, hc⟩
    · exact .of_credit hc
    · exact (h.notify hs).update (Or.inr ⟨hw, Or.inr (by rw [hc])⟩)

theorem awake_notifyOne (h : Awake s) {within w : _} {pc : Thread n C → Pc α} (hp : s.pc t = .submitNotify within)
    (hn : Monitor.notifyOne Pc.isWaiting ThreadPool.wake s.pc w = some pc) :
    Awake { s with pc := Function.update pc t (resume within) } := by
  have hpt : pc t = .submitNotify within := by
    rcases notifyOne_woken hn t with he | ⟨hw, _⟩
    · exact he.trans hp
    · rw [hp] at hw
      cases hw
  constructor
  · intro hs htasks
    apply (h.wake hs htasks).notifyOne hn _ (by rw [hp]; rfl) (isWaiting_resume within)
    · have := Bool.toNat_le (s.pc t).isCredit
      omega
    · intro c hc
      rw [eq_waiting hc]
      exact ⟨rfl, rfl, rfl⟩
  · intro hs
    refine ((h.notify hs).notifyOther hn ?_).update (Or.inr ⟨isWaiting_resume within, Or.inr ?_⟩)
    · intro c hc
      rw [eq_waiting hc]
      exact ⟨rfl, rfl⟩
    · rw [hpt, isClosing_resume]
      exact Nat.le_refl _

theorem awake_notifyAll : Awake { s with
    pc := Function.update (Monitor.notifyAll Pc.isWaiting ThreadPool.wake s.pc) .destructor (.join 0) } := by
  have hnone : count Pc.isWaiting
      (Function.update (Monitor.notifyAll Pc.isWaiting ThreadPool.wake s.pc) .destructor (.join 0)) = 0 :=
    count_notifyAll (fun _ => rfl) s.pc rfl
  constructor
  · exact fun _ _ hw => absurd hnone (Nat.ne_of_gt hw)
  · exact fun _ hw => absurd hnone (Nat.ne_of_gt hw)

theorem awake_step {a : Act n C α} (hi : Safe s) (h : Awake s) (hs : step s a = some s') : Awake s' := by
  cases step_cases hs with
  | move hm hn => exact h.move hm (hi.points _).point hn
  | notifyOne hp hn => exact awake_notifyOne h hp hn
  | notifyAll => exact awake_notifyAll

theorem inv_reachable (h : (threadPool n C α).Reachable s) : Safe s ∧ Awake s :=
  h.inv (P := fun s => Safe s ∧ Awake s) ⟨safe_init, awake_init⟩ fun _ _ _ hi hs =>
    ⟨safe_step hi.1 hs, awake_step hi.1 hi.2 hs⟩

end

/-! ## The result -/

section
variable {n : Nat} {C α : Type} [Fintype C] [DecidableEq C]

/-- Either `t` holds task `k` and nobody has run it, or nobody holds it and `t` has run it, once. -/
def InHandsOrRun (s : State n C α) (t : Thread n C) (k : Nat) : Prop :=
  (∀ u, (s.pc u).task = some k ↔ u = t) ∧ s.shared.runsOf k = [] ∨
    (∀ u, (s.pc u).task ≠ some k) ∧ s.shared.runsOf k = [t]

structure Served (s : State n C α) : Prop where
  fifo : s.shared.accepted = s.shared.taken.map Prod.snd ++ s.shared.tasks
  once : ∀ k t task, s.shared.taken[k]? = some (t, task) → (∃ i, t = .worker i) ∧ InHandsOrRun s t k
  untaken : ∀ k, s.shared.taken.length ≤ k → s.shared.runsOf k = []
  refused : ∀ t task within s', s.pc t = .submitCheck task within → s.shared.stop = true →
    step s (.inside t) = some s' → s'.pc t = .submitThrow within ∧ s'.shared = s.shared
  accepted : ∀ t task within, s.pc t = .submitEmplace task within → s.shared.stop = false
  front : ∀ t, s.pc t ≠ .fault
  left : ∀ t, s.pc t = .leave ∨ s.pc t = .exited → s.shared.stop = true ∧ s.shared.tasks = []
  awake : (∀ i, s.pc (.worker i) = .waiting) → s.shared.tasks ≠ [] ∨ s.shared.stop = true →
    ∃ t, (s.pc t).isPending = true
  destroyed : s.pc .destructor = .join n → ∀ k task, s.shared.accepted[k]? = some task →
    ∃ i, s.shared.taken[k]? = some (.worker i, task) ∧ s.shared.runsOf k = [.worker i]

variable {s : State n C α}

omit [DecidableEq C] in
theorem Safe.inHandsOrRun (h : Safe s) {k : Nat} {t : Thread n C} {task : α}
    (hk : s.shared.taken[k]? = some (t, task)) : InHandsOrRun s t k := by
  have hlt : k < s.shared.taken.length := (List.getElem?_eq_some_iff.mp hk).1
  have honce := h.once k
  rw [decide_eq_true hlt, Bool.toNat_true] at honce
  have htaker : ∀ u, (∃ task, s.shared.taken[k]? = some (u, task)) → u = t := by
    intro u ⟨task', hu⟩
    exact (Prod.mk.inj (Option.some.inj (hk.symm.trans hu))).1.symm
  have hhold : ∀ u, (s.pc u).task = some k → u = t := fun u hu => htaker u ((h.points u).hands k hu)
  rcases Nat.eq_zero_or_pos (s.shared.runsOf k).length with hzero | hpos
  · left
    obtain ⟨u, hu⟩ := count_pos.mp (by omega : 0 < count (fun c => c.task == some k) s.pc)
    have hu := beq_iff_eq.mp hu
    obtain rfl := hhold u hu
    refine ⟨fun v => ⟨hhold v, ?_⟩, List.length_eq_zero_iff.mp hzero⟩
    intro heq
    subst heq
    exact hu
  · right
    have hnone := count_eq_zero.mp (by omega : count (fun c => c.task == some k) s.pc = 0)
    obtain ⟨u, hu⟩ := List.length_eq_one_iff.mp (by omega : (s.shared.runsOf k).length = 1)
    refine ⟨fun v hv => by simpa [hv] using hnone v, ?_⟩
    have hmem : (u, k) ∈ s.shared.ran := by
      have hu : u ∈ s.shared.runsOf k := by simp [hu]
      simpa [Shared.runsOf] using hu
    rw [hu, htaker u (h.ran u k hmem)]

omit [Fintype C] [DecidableEq C] in
theorem exists_worker {t : Thread n C} (h : t.role = .worker) : ∃ i, t = .worker i := by
  cases t with
  | worker i => exact ⟨i, rfl⟩
  | caller c => cases h
  | destructor => cases h

omit [DecidableEq C] in
theorem Safe.untaken (h : Safe s) {k : Nat} (hk : s.shared.taken.length ≤ k) : s.shared.runsOf k = [] := by
  have honce := h.once k
  rw [decide_eq_false (Nat.not_lt.mpr hk), Bool.toNat_false] at honce
  exact List.length_eq_zero_iff.mp (by omega)

omit [DecidableEq C] in
theorem Safe.left (h : Safe s) {t : Thread n C} (ht : s.pc t = .leave ∨ s.pc t = .exited) :
    s.shared.stop = true ∧ s.shared.tasks = [] := by
  have hpoint := (h.points t).point
  rcases ht with ht | ht <;> rw [ht] at hpoint <;> exact hpoint

omit [DecidableEq C] in
/-- If all workers wait, whoever sees to the queue is about to notify. -/
theorem Awake.pending (h : Awake s) (hs : Safe s) (hn : 0 < n) (hall : ∀ i, s.pc (.worker i) = .waiting)
    (hne : s.shared.tasks ≠ [] ∨ s.shared.stop = true) : ∃ t, (s.pc t).isPending = true := by
  have hpos : 0 < count Pc.isWaiting s.pc := count_pos.mpr ⟨.worker ⟨0, hn⟩, by rw [hall]; rfl⟩
  cases hstop : s.shared.stop with
  | true =>
    obtain ⟨t, ht⟩ := count_pos.mp (h.notify hstop hpos)
    exact ⟨t, by cases hp : s.pc t <;> rw [hp] at ht <;> first | rfl | cases ht⟩
  | false =>
    obtain ⟨t, ht⟩ := count_pos.mp (h.wake hstop (hne.resolve_right (by simp [hstop])) hpos)
    refine ⟨t, ?_⟩
    have hrole : (s.pc t).role ≠ .worker := by
      intro hw
      obtain ⟨i, rfl⟩ := exists_worker ((hs.points t).role.symm.trans hw)
      rw [hall i] at ht
      cases ht
    cases hp : s.pc t with
    | submitUnlock within => rfl
    | submitNotify within => rfl
    | submitLock task within => cases within <;> simp [hp, Pc.isCredit, Pc.role, roleWithin] at ht hrole
    | submitCheck task within => cases within <;> simp [hp, Pc.isCredit, Pc.role, roleWithin] at ht hrole
    | submitThrow within => cases within <;> simp [hp, Pc.isCredit, Pc.role, roleWithin] at ht hrole
    | submitEmplace task within => cases within <;> simp [hp, Pc.isCredit, Pc.role, roleWithin] at ht hrole
    | _ => simp [hp, Pc.isCredit, Pc.role] at ht hrole

/-- **Every accepted task runs once**, for any interleaving of submitting, working and shutting down. -/
theorem served_reachable (hn : 0 < n) (s : State n C α) (h : (threadPool n C α).Reachable s) : Served s := by
  obtain ⟨hs, hawake⟩ := inv_reachable h
  have htaker : ∀ k t task, s.shared.taken[k]? = some (t, task) → ∃ i, t = Thread.worker i := fun k t task hk =>
    exists_worker (hs.takers _ (List.mem_of_getElem? hk))
  exact {
    fifo := hs.fifo
    once := fun k t task hk => ⟨htaker k t task hk, hs.inHandsOrRun hk⟩
    untaken := fun k => hs.untaken
    refused := by
      intro t task within s' ht hstop hstep
      obtain ⟨x, c, hc, rfl⟩ := Program.insideStep_some hstep
      change inside t s.shared (s.pc t) = some (x, c) at hc
      rw [ht] at hc
      simp only [inside, hstop, if_true, Option.some.injEq, Prod.mk.injEq] at hc
      obtain ⟨rfl, rfl⟩ := hc
      exact ⟨Function.update_self _ _ _, rfl⟩
    accepted := by
      intro t task within ht
      have hpoint := (hs.points t).point
      rw [ht] at hpoint
      exact hpoint
    front := by
      intro t ht
      have hpoint := (hs.points t).point
      rw [ht] at hpoint
      exact hpoint
    left := fun t => hs.left
    awake := hawake.pending hs hn
    destroyed := by
      intro hd k task hk
      have hexited : ∀ i, s.pc (.worker i) = .exited := fun i => hs.joined i n hd i.isLt
      have htasks := (hs.left (Or.inr (hexited ⟨0, hn⟩))).2
      rw [hs.fifo, htasks, List.append_nil, List.getElem?_map, Option.map_eq_some_iff] at hk
      obtain ⟨⟨t, task'⟩, hk, rfl⟩ := hk
      obtain ⟨i, rfl⟩ := htaker k t task' hk
      refine ⟨i, hk, ?_⟩
      rcases hs.inHandsOrRun hk with ⟨hhold, -⟩ | ⟨-, hran⟩
      · have htask := (hhold (.worker i)).mpr rfl
        rw [hexited i] at htask
        cases htask
      · exact hran }

end

/-- One of two workers waits; a task is submitted, and while it runs the pool is stopped and it submits one more. -/
def stopped : List (Act 2 (Fin 1) Nat) :=
  [.acquire (.worker 0), .inside (.worker 0), .release (.worker 0), .submit (.caller 0) 7, .acquire (.caller 0),
    .inside (.caller 0), .inside (.caller 0), .release (.caller 0), .notifyOne (.caller 0) (some (.worker 0)),
    .acquire (.worker 0), .inside (.worker 0), .inside (.worker 0), .release (.worker 0), .destroy,
    .acquire .destructor, .inside .destructor, .release .destructor, .notifyAll, .submit (.worker 0) 9,
    .acquire (.worker 0), .inside (.worker 0), .release (.worker 0), .run (.worker 0), .acquire (.worker 0),
    .inside (.worker 0), .inside (.worker 0), .release (.worker 0), .join, .acquire (.worker 1),
    .inside (.worker 1), .inside (.worker 1), .release (.worker 1), .join]

theorem served_stopped :
    ∃ s, (threadPool 2 (Fin 1) Nat).run (threadPool 2 (Fin 1) Nat).init stopped = some s ∧
      s.pc .destructor = .join 2 ∧ s.shared.accepted = [7] ∧ Served s :=
  ⟨_, rfl, rfl, rfl, served_reachable (by decide) _ (System.reachable_of_run stopped .init rfl)⟩

end Playground.ThreadPool
