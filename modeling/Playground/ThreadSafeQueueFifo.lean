import Playground.ThreadSafeQueueSound

/-!
# The thread-safe queue is a FIFO queue that can be closed

What a step does to the thread that takes it and to the queue is one `Turn`;
any other thread stays where it is, or is woken. The accepted items are those
taken, in order, and those still queued.
-/

namespace Playground.ThreadSafeQueue

/-! ## One step, seen from the thread that takes it -/

section
variable {α : Type}

def Pc.takes (c : Pc α) : Prop := c = .tryPopTake ∨ ∃ woken, c = .popTake woken

inductive Turn (x : Shared α) : Pc α → Pc α → Shared α → Prop
  | enter (op : Op α) : Turn x .idle (enter op) x
  | acquire {c c'} (h : acquire c = some c') : Turn x c c' x
  | release {c c'} (h : release c = some c') : Turn x c c' x
  | pushThrow {item} (h : x.closed = true) : Turn x (.pushCheck item) .pushThrow x
  | pushOpen {item} (h : x.closed = false) : Turn x (.pushCheck item) (.pushEnqueue item) x
  | pushEnqueue {item} : Turn x (.pushEnqueue item) .pushUnlock
      { x with queue := x.queue ++ [item], pushed := x.pushed ++ [item] }
  | popReady {woken} (h : ready x = true) : Turn x (.popCheck woken) (.popTake woken) x
  | popWait {woken} (h : ready x = false) : Turn x (.popCheck woken) .popWait x
  | takeNone {c} (hc : c.takes) (hq : x.queue = []) : Turn x c (.unlock none) x
  | takeSome {c item queue} (hc : c.takes) (hq : x.queue = item :: queue) :
      Turn x c (.unlock (some item)) { x with queue, popped := x.popped ++ [item] }
  | closeSet : Turn x .closeSet .closeUnlock { x with closed := true }
  | notifyOne : Turn x .pushNotify .idle x
  | notifyAll : Turn x .closeNotify .idle x
  | wake : Turn x .waiting .woken x

theorem turn_take {x : Shared α} {c : Pc α} (hc : c.takes) : Turn x c (take x).2 (take x).1 := by
  cases hq : x.queue with
  | nil =>
    have htake : take x = (x, .unlock none) := by simp [take, hq]
    rw [htake]
    exact .takeNone hc hq
  | cons item queue =>
    have htake :
      take x = ({ x with queue, popped := x.popped ++ [item] }, .unlock (some item)) := by simp [take, hq]
    rw [htake]
    exact .takeSome hc hq

theorem turn_inside {x x' : Shared α} {c c' : Pc α} (h : inside x c = some (x', c')) : Turn x c c' x' := by
  cases c with
  | pushCheck item =>
    obtain ⟨rfl, rfl⟩ := Prod.mk.inj (Option.some.inj h)
    cases hc : x.closed with
    | false => exact .pushOpen hc
    | true => exact .pushThrow hc
  | pushEnqueue item =>
    obtain ⟨rfl, rfl⟩ := Prod.mk.inj (Option.some.inj h)
    exact .pushEnqueue
  | popCheck woken =>
    obtain ⟨rfl, rfl⟩ := Prod.mk.inj (Option.some.inj h)
    cases hr : ready x with
    | false => exact .popWait hr
    | true => exact .popReady hr
  | popTake woken =>
    obtain ⟨rfl, rfl⟩ := Prod.mk.inj (Option.some.inj h)
    exact turn_take (Or.inr ⟨woken, rfl⟩)
  | tryPopTake =>
    obtain ⟨rfl, rfl⟩ := Prod.mk.inj (Option.some.inj h)
    exact turn_take (Or.inl rfl)
  | closeSet =>
    obtain ⟨rfl, rfl⟩ := Prod.mk.inj (Option.some.inj h)
    exact .closeSet
  | _ => cases h

theorem Turn.shared {x x' : Shared α} {c c' : Pc α} (h : Turn x c c' x') : x' = x ∨ c.holds = true := by
  cases h with
  | pushEnqueue => exact Or.inr rfl
  | takeSome hc _ => rcases hc with rfl | ⟨_, rfl⟩ <;> exact Or.inr rfl
  | closeSet => exact Or.inr rfl
  | _ => exact Or.inl rfl

end

def Act.thread {T α : Type} : Act T α → T
  | .call t _ | .acquire t | .release t | .inside t | .notifyOne t _ | .notifyAll t | .spurious t => t

section
variable {T α : Type} [Fintype T] [DecidableEq T] {s s' : State T α}

theorem isWaiting_iff {c : Pc α} : c.isWaiting = true ↔ c = .waiting := by
  cases c <;> simp [Pc.isWaiting]

/-- The two sides of a step: the thread that takes it, and the others. -/
def Turned (s : State T α) (t : T) (s' : State T α) : Prop :=
  Turn s.shared (s.pc t) (s'.pc t) s'.shared ∧
    ∀ u, u ≠ t → s'.pc u = s.pc u ∨ s.pc u = .waiting ∧ s'.pc u = .woken

omit [Fintype T] in
theorem turned_goto {t : T} {c : Pc α} {x : Shared α} {o : Option T} (h : Turn s.shared (s.pc t) c x) :
    Turned s t { s.goto t c with shared := x, owner := o } := by
  constructor
  · show Turn s.shared (s.pc t) (Function.update s.pc t c t) x
    rw [Function.update_self]
    exact h
  · intro u hu
    show Function.update s.pc t c u = s.pc u ∨ _
    exact Or.inl (Function.update_of_ne hu c s.pc)

omit [Fintype T] in
theorem turned_notify {t : T} {pc : T → Pc α} (h : Turn s.shared (s.pc t) .idle s.shared)
    (hpc : ∀ u, pc u = s.pc u ∨ (s.pc u).isWaiting = true ∧ pc u = wake (s.pc u)) :
    Turned s t { s with pc := Function.update pc t .idle } := by
  constructor
  · show Turn s.shared (s.pc t) (Function.update pc t .idle t) s.shared
    rw [Function.update_self]
    exact h
  · intro u hu
    show Function.update pc t .idle u = s.pc u ∨ s.pc u = .waiting ∧ Function.update pc t .idle u = .woken
    rw [Function.update_of_ne hu]
    exact (hpc u).imp_right fun ⟨hw, he⟩ => ⟨isWaiting_iff.mp hw, he⟩

theorem turned_step {a : Act T α} (h : step s a = some s') : Turned s a.thread s' := by
  cases a with
  | call t op =>
    unfold step at h
    cases hp : s.pc t with
    | idle =>
      simp only [hp, Option.some.injEq] at h
      subst h
      apply turned_goto (x := s.shared) (o := s.owner)
      exact hp ▸ .enter op
    | _ => simp only [hp, reduceCtorEq] at h
  | acquire t =>
    obtain ⟨c, _, hc, rfl⟩ := Monitor.Program.acquireStep_some h
    exact turned_goto (x := s.shared) (.acquire hc)
  | release t =>
    obtain ⟨c, hc, rfl⟩ := Monitor.Program.releaseStep_some h
    exact turned_goto (x := s.shared) (.release hc)
  | inside t =>
    obtain ⟨x, c, hc, rfl⟩ := Monitor.Program.insideStep_some h
    exact turned_goto (o := s.owner) (turn_inside hc)
  | notifyOne t w =>
    unfold step at h
    cases hp : s.pc t with
    | pushNotify =>
      simp only [hp, Option.map_eq_some_iff] at h
      obtain ⟨pc, hn, rfl⟩ := h
      exact turned_notify (hp ▸ .notifyOne) (Monitor.notifyOne_woken hn)
    | _ => simp only [hp, reduceCtorEq] at h
  | notifyAll t =>
    unfold step at h
    cases hp : s.pc t with
    | closeNotify =>
      simp only [hp, Option.some.injEq] at h
      subst h
      exact turned_notify (hp ▸ .notifyAll) (Monitor.notifyAll_woken Pc.isWaiting wake s.pc)
    | _ => simp only [hp, reduceCtorEq] at h
  | spurious w =>
    simp only [step, Option.ite_none_right_eq_some, Option.some.injEq] at h
    obtain ⟨hw, rfl⟩ := h
    apply turned_goto (x := s.shared) (o := s.owner)
    exact isWaiting_iff.mp hw ▸ .wake

/-! ## The invariant -/

def Knows (x : Shared α) : Pc α → Prop
  | .pushEnqueue _ => x.closed = false
  | .popTake _ => ready x = true
  | _ => True

omit [Fintype T] [DecidableEq T] in
theorem knows_of_not_holds {x : Shared α} {c : Pc α} (h : c.holds = false) : Knows x c := by
  cases c <;> first | exact True.intro | cases h

structure Fifo (s : State T α) : Prop where
  fifo : s.shared.pushed = s.shared.popped ++ s.shared.queue
  knows : ∀ t, Knows s.shared (s.pc t)

omit [Fintype T] [DecidableEq T] in
theorem Turn.knows {x x' : Shared α} {c c' : Pc α} (h : Turn x c c' x') : Knows x' c' := by
  cases h with
  | enter op => cases op <;> trivial
  | acquire h => cases c <;> cases h <;> trivial
  | release h => cases c <;> cases h <;> trivial
  | pushOpen h => exact h
  | popReady h => exact h
  | _ => trivial

omit [Fintype T] [DecidableEq T] in
theorem Turn.fifo {x x' : Shared α} {c c' : Pc α} (h : Turn x c c' x') (hf : x.pushed = x.popped ++ x.queue) :
    x'.pushed = x'.popped ++ x'.queue := by
  cases h with
  | pushEnqueue => simp [hf]
  | takeSome hc hq => simp [hf, hq]
  | _ => exact hf

theorem Fifo.step (h : Fifo s) (hex : (program α).Exclusive s) {a : Act T α} (hs : step s a = some s') :
    Fifo s' := by
  obtain ⟨hturn, hother⟩ := turned_step hs
  refine ⟨hturn.fifo h.fifo, fun u => ?_⟩
  by_cases hu : u = a.thread
  · exact hu ▸ hturn.knows
  · rcases hother u hu with he | ⟨_, he⟩
    · rw [he]
      rcases hturn.shared with hx | hh
      · rw [hx]
        exact h.knows u
      · apply knows_of_not_holds
        exact Bool.eq_false_iff.mpr fun hu' => hu (hex.eq hu' hh)
    · rw [he]
      trivial

theorem fifo_reachable (h : (threadSafeQueue T α).Reachable s) : Fifo s := by
  have hboth : Inv s ∧ Fifo s := by
    apply h.inv (P := fun s => Inv s ∧ Fifo s)
    · exact ⟨inv_init, rfl, fun _ => trivial⟩
    · exact fun _ _ _ ⟨hi, hf⟩ hs => ⟨inv_step hi hs, hf.step hi.exclusive hs⟩
  exact hboth.2

/-! ## Closing -/

section
omit [Fintype T] [DecidableEq T]
variable {x x' : Shared α} {c c' : Pc α}

theorem Turn.closed (h : Turn x c c' x') (hk : Knows x c) (hc : x.closed = true) :
    x'.closed = true ∧ x'.pushed = x.pushed := by
  cases h with
  | pushEnqueue => exact absurd (hc.symm.trans hk) Bool.noConfusion
  | closeSet => exact ⟨rfl, rfl⟩
  | _ => exact ⟨hc, rfl⟩

theorem Turn.drained (h : Turn x c c' x') (hk : Knows x c) (hc : x.closed = true) (hq : x.queue = []) :
    x'.closed = true ∧ x'.queue = [] := by
  cases h with
  | pushEnqueue => exact absurd (hc.symm.trans hk) Bool.noConfusion
  | takeSome _ hq' => exact absurd (hq.symm.trans hq') (List.cons_ne_nil _ _).symm
  | closeSet => exact ⟨rfl, hq⟩
  | _ => exact ⟨hc, hq⟩

theorem Turn.pushCheck {item : α} (h : Turn x (.pushCheck item) c' x') (hc : x.closed = true) :
    c' = .pushThrow ∧ x' = x := by
  cases h with
  | pushThrow _ => exact ⟨rfl, rfl⟩
  | pushOpen ho => exact absurd (hc.symm.trans ho) Bool.noConfusion
  | acquire h => cases h
  | release h => cases h
  | takeNone hc _ => rcases hc with hc | ⟨_, hc⟩ <;> cases hc
  | takeSome hc _ => rcases hc with hc | ⟨_, hc⟩ <;> cases hc

theorem Turn.take (h : Turn x c c' x') (hc : c.takes) :
    c' = .unlock none ∧ x.queue = [] ∨ ∃ item queue, c' = .unlock (some item) ∧ x.queue = item :: queue := by
  cases h with
  | takeNone _ hq => exact Or.inl ⟨rfl, hq⟩
  | takeSome _ hq => exact Or.inr ⟨_, _, rfl, hq⟩
  | acquire h => rcases hc with rfl | ⟨_, rfl⟩ <;> cases h
  | release h => rcases hc with rfl | ⟨_, rfl⟩ <;> cases h
  | _ => rcases hc with hc | ⟨_, hc⟩ <;> cases hc

/-- An item is taken by the step that is about to return it, and by no other. -/
theorem Turn.popped (h : Turn x c c' x') :
    (∃ item, c.takes ∧ c' = .unlock (some item) ∧ x'.popped = x.popped ++ [item]) ∨
      (∀ item, c' ≠ .unlock (some item)) ∧ x'.popped = x.popped := by
  cases h with
  | takeSome hc _ => exact Or.inl ⟨_, hc, rfl, rfl⟩
  | enter op => exact Or.inr ⟨by cases op <;> exact nofun, rfl⟩
  | acquire h => exact Or.inr ⟨by cases c <;> cases h <;> exact nofun, rfl⟩
  | release h => exact Or.inr ⟨by cases c <;> cases h <;> exact nofun, rfl⟩
  | _ => exact Or.inr ⟨nofun, rfl⟩

theorem Turn.pushed (h : Turn x c c' x') :
    (∃ item, c = .pushEnqueue item ∧ x'.pushed = x.pushed ++ [item]) ∨ x'.pushed = x.pushed := by
  cases h with
  | pushEnqueue => exact Or.inl ⟨_, rfl, rfl⟩
  | _ => exact Or.inr rfl

end

theorem drained_run (hr : (threadSafeQueue T α).Reachable s) (hc : s.shared.closed = true)
    (hq : s.shared.queue = []) {as : List (Act T α)} (h : (threadSafeQueue T α).run s as = some s') :
    (threadSafeQueue T α).Reachable s' ∧ s'.shared.closed = true ∧ s'.shared.queue = [] := by
  induction as generalizing s with
  | nil =>
    obtain rfl := Option.some.inj h
    exact ⟨hr, hc, hq⟩
  | cons a as ih =>
    obtain ⟨t, ht, h⟩ := Option.bind_eq_some_iff.mp h
    obtain ⟨hturn, _⟩ := turned_step ht
    obtain ⟨hc', hq'⟩ := hturn.drained ((fifo_reachable hr).knows _) hc hq
    exact ih (hr.step a ht) hc' hq' h

/-- What holds of the queue in a state of a run, and of the next step. -/
structure FifoQueue (s : State T α) : Prop where
  fifo : s.shared.pushed = s.shared.popped ++ s.shared.queue
  popped : ∀ a s', step s a = some s' →
    (∃ item, (s.pc a.thread).takes ∧ s'.pc a.thread = .unlock (some item) ∧
      s'.shared.popped = s.shared.popped ++ [item]) ∨
    (∀ item, s'.pc a.thread ≠ .unlock (some item)) ∧ s'.shared.popped = s.shared.popped
  pushed : ∀ a s', step s a = some s' →
    (∃ item, s.pc a.thread = .pushEnqueue item ∧ s'.shared.pushed = s.shared.pushed ++ [item]) ∨
    s'.shared.pushed = s.shared.pushed
  push_closed : s.shared.closed = true → ∀ t item s', s.pc t = .pushCheck item → step s (.inside t) = some s' →
    s'.pc t = .pushThrow ∧ s'.shared = s.shared
  stays_closed : s.shared.closed = true → ∀ a s', step s a = some s' →
    s'.shared.closed = true ∧ s'.shared.pushed = s.shared.pushed
  pop_none : ∀ t woken s', s.pc t = .popTake woken → step s (.inside t) = some s' → s'.pc t = .unlock none →
    s.shared.closed = true ∧ s.shared.queue = []
  drained : s.shared.closed = true → s.shared.queue = [] → ∀ as s', (threadSafeQueue T α).run s as = some s' →
    s'.shared.closed = true ∧ s'.shared.queue = [] ∧
      ∀ t s'', (s'.pc t).takes → step s' (.inside t) = some s'' → s''.pc t = .unlock none

theorem fifoQueue_reachable (h : (threadSafeQueue T α).Reachable s) : FifoQueue s where
  fifo := (fifo_reachable h).fifo
  popped := fun _ _ hs => (turned_step hs).1.popped
  pushed := fun _ _ hs => (turned_step hs).1.pushed
  push_closed := by
    intro hc t item s' hp hs
    have hturn : Turn s.shared (.pushCheck item) (s'.pc t) s'.shared := hp ▸ (turned_step hs).1
    exact hturn.pushCheck hc
  stays_closed := fun hc a s' hs => (turned_step hs).1.closed ((fifo_reachable h).knows a.thread) hc
  pop_none := by
    intro t woken s' hp hs hnone
    have hr : ready s.shared = true := by
      have := (fifo_reachable h).knows t
      rwa [hp] at this
    rcases (turned_step hs).1.take (Or.inr ⟨woken, hp⟩) with ⟨_, hq⟩ | ⟨item, _, hsome, _⟩
    · refine ⟨?_, hq⟩
      rw [ready, hq] at hr
      exact hr
    · cases hnone.symm.trans hsome
  drained := by
    intro hc hq as s' hrun
    obtain ⟨_, hc', hq'⟩ := drained_run h hc hq hrun
    refine ⟨hc', hq', fun t s'' ht hs => ?_⟩
    rcases (turned_step hs).1.take ht with ⟨hnone, _⟩ | ⟨_, _, _, hsome⟩
    · exact hnone
    · cases hq'.symm.trans hsome

end

end Playground.ThreadSafeQueue
