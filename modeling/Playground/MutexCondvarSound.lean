import Mathlib.Algebra.Order.BigOperators.Group.Finset
import Mathlib.Algebra.Order.Group.Multiset
import Mathlib.Data.Fintype.BigOperators
import Playground.MutexCondvar

/-!
# Every item is consumed, and both loops end

The vectors of the consumers hold what was popped, each in the order of the
pushes (`Inv`); while an item is in the buffer some consumer is about to look
at it, or the producer about to notify. What is left of a run is a sum over
the threads, so it is finite as long as wakeups that nobody asked for are.
-/

namespace Playground.MutexCondvar

open Monitor

/-! ## One step, seen from the thread that takes it -/

inductive Turn (n : Nat) (x : Shared) : Thread → Thread → Shared → Prop
  | pushLock {i} : Turn n x (.producer (.lock i)) (.producer (.push i)) x
  | push {i} : Turn n x (.producer (.push i)) (.producer (.unlock i)) { x with buffer := x.buffer ++ [i] }
  | pushUnlock {i} : Turn n x (.producer (.unlock i)) (.producer (.notify i)) x
  | notify {i} : Turn n x (.producer (.notify i)) (.producer (next n (i + 1))) x
  | doneLock : Turn n x (.producer .doneLock) (.producer .doneSet) x
  | doneSet : Turn n x (.producer .doneSet) (.producer .doneUnlock) { x with done := true }
  | doneUnlock : Turn n x (.producer .doneUnlock) (.producer .doneNotify) x
  | doneNotify : Turn n x (.producer .doneNotify) (.producer .returned) x
  | lock {l} : Turn n x (.consumer .lock l) (.consumer .check l) x
  | recheck {l} : Turn n x (.consumer .woken l) (.consumer .check l) x
  | ready {l} (h : ready x = true) : Turn n x (.consumer .check l) (.consumer .drain l) x
  | wait {l} (h : MutexCondvar.ready x = false) : Turn n x (.consumer .check l) (.consumer .wait l) x
  | sleep {l} : Turn n x (.consumer .wait l) (.consumer .waiting l) x
  | wake {l} : Turn n x (.consumer .waiting l) (.consumer .woken l) x
  | pop {l val buffer} (h : x.buffer = val :: buffer) :
      Turn n x (.consumer .drain l) (.consumer .drain (l ++ [val])) { x with buffer, popped := x.popped ++ [val] }
  | drained {l} (h : x.buffer = []) : Turn n x (.consumer .drain l) (.consumer .leave l) x
  | leave {l} : Turn n x (.consumer .leave l) (.consumer (.unlock (x.done && x.buffer.isEmpty)) l) x
  | again {l} : Turn n x (.consumer (.unlock false) l) (.consumer .lock l) x
  | last {l} : Turn n x (.consumer (.unlock true) l) (.consumer .returned l) x

section
variable {n : Nat} {x x' : Shared} {c c' d : Thread}

theorem turn_acquire (h : acquire c = some c') : Turn n x c c' x := by
  cases c with
  | producer pc =>
    cases pc with
    | lock i => cases h; exact .pushLock
    | doneLock => cases h; exact .doneLock
    | _ => cases h
  | consumer pc l =>
    cases pc with
    | lock => cases h; exact .lock
    | woken => cases h; exact .recheck
    | _ => cases h

theorem turn_release (h : release c = some c') : Turn n x c c' x := by
  cases c with
  | producer pc =>
    cases pc with
    | unlock i => cases h; exact .pushUnlock
    | doneUnlock => cases h; exact .doneUnlock
    | _ => cases h
  | consumer pc l =>
    cases pc with
    | wait => cases h; exact .sleep
    | unlock last =>
      cases last with
      | false => cases h; exact .again
      | true => cases h; exact .last
    | _ => cases h

theorem turn_drain (l : List Nat) : Turn n x (.consumer .drain l) (drain x l).2 (drain x l).1 := by
  cases hb : x.buffer with
  | nil =>
    have hdrain : drain x l = (x, .consumer .leave l) := by simp [drain, hb]
    rw [hdrain]
    exact .drained hb
  | cons val buffer =>
    have hdrain : drain x l = ({ x with buffer, popped := x.popped ++ [val] }, .consumer .drain (l ++ [val])) := by
      simp [drain, hb]
    rw [hdrain]
    exact .pop hb

theorem turn_inside (h : inside x c = some (x', c')) : Turn n x c c' x' := by
  cases c with
  | producer pc =>
    cases pc with
    | push i => cases h; exact .push
    | doneSet => cases h; exact .doneSet
    | _ => cases h
  | consumer pc l =>
    cases pc with
    | check =>
      obtain ⟨rfl, rfl⟩ := Prod.mk.inj (Option.some.inj h)
      cases hr : ready x with
      | false => exact .wait hr
      | true => exact .ready hr
    | drain =>
      obtain ⟨rfl, rfl⟩ := Prod.mk.inj (Option.some.inj h)
      exact turn_drain l
    | leave => cases h; exact .leave
    | _ => cases h

theorem Turn.shared (h : Turn n x c c' x') : x' = x ∨ c.holds = true := by
  cases h with
  | push => exact .inr rfl
  | doneSet => exact .inr rfl
  | pop _ => exact .inr rfl
  | _ => exact .inl rfl

theorem isWaiting_iff : c.isWaiting = true ↔ ∃ l, c = .consumer .waiting l := by
  cases c with
  | producer pc => simp [Thread.isWaiting]
  | consumer pc l => cases pc <;> simp [Thread.isWaiting]

end

section
variable {C : Type} {n : Nat} {s s' : State C} {t : Option C}

def Act.thread : Act C → Option C
  | .acquire t | .release t | .inside t | .spurious t => t
  | .notifyOne _ | .notifyAll => none

/-- The two sides of a step: the thread that takes it, and the others. -/
def Turned (n : Nat) (s : State C) (t : Option C) (s' : State C) : Prop :=
  Turn n s.shared (s.pc t) (s'.pc t) s'.shared ∧
    ∀ u, u ≠ t → s'.pc u = s.pc u ∨ (s.pc u).isWaiting = true ∧ s'.pc u = wake (s.pc u)

variable [DecidableEq C]

theorem turned_goto {c : Thread} {x : Shared} {o : Option (Option C)} (h : Turn n s.shared (s.pc t) c x) :
    Turned n s t { s.goto t c with shared := x, owner := o } := by
  constructor
  · show Turn n s.shared (s.pc t) (Function.update s.pc t c t) x
    rw [Function.update_self]
    exact h
  · intro u hu
    show Function.update s.pc t c u = s.pc u ∨ _
    exact .inl (Function.update_of_ne hu c s.pc)

theorem turned_notify {c : Thread} {pc : Option C → Thread} (h : Turn n s.shared (s.pc t) c s.shared)
    (hpc : ∀ u, pc u = s.pc u ∨ (s.pc u).isWaiting = true ∧ pc u = wake (s.pc u)) :
    Turned n s t { s with pc := Function.update pc t c } := by
  constructor
  · show Turn n s.shared (s.pc t) (Function.update pc t c t) s.shared
    rw [Function.update_self]
    exact h
  · intro u hu
    show Function.update pc t c u = s.pc u ∨ (s.pc u).isWaiting = true ∧ Function.update pc t c u = wake (s.pc u)
    rw [Function.update_of_ne hu]
    exact hpc u

variable [Fintype C]

theorem notifyOne_some {w : Option (Option C)} (h : step n s (.notifyOne w) = some s') :
    ∃ i pc, s.pc none = .producer (.notify i) ∧ notifyOne Thread.isWaiting wake s.pc w = some pc ∧
      s' = { s with pc := Function.update pc none (.producer (next n (i + 1))) } := by
  simp only [step] at h
  split at h
  · rename_i i hp
    obtain ⟨pc, hn, rfl⟩ := Option.map_eq_some_iff.mp h
    exact ⟨i, pc, hp, hn, rfl⟩
  · cases h

theorem notifyAll_some (h : step n s .notifyAll = some s') : s.pc none = .producer .doneNotify ∧
    s' = { s with pc := Function.update (notifyAll Thread.isWaiting wake s.pc) none (.producer .returned) } := by
  simp only [step] at h
  split at h
  · rename_i hp
    exact ⟨hp, (Option.some.inj h).symm⟩
  · cases h

theorem turned_step {a : Act C} (h : step n s a = some s') : Turned n s a.thread s' := by
  cases a with
  | acquire t =>
    obtain ⟨c, _, hc, rfl⟩ := Program.acquireStep_some h
    exact turned_goto (x := s.shared) (turn_acquire hc)
  | release t =>
    obtain ⟨c, hc, rfl⟩ := Program.releaseStep_some h
    exact turned_goto (x := s.shared) (turn_release hc)
  | inside t =>
    obtain ⟨x, c, hc, rfl⟩ := Program.insideStep_some h
    exact turned_goto (o := s.owner) (turn_inside hc)
  | notifyOne w =>
    obtain ⟨i, pc, hp, hn, rfl⟩ := notifyOne_some h
    exact turned_notify (hp ▸ .notify) (notifyOne_woken hn)
  | notifyAll =>
    obtain ⟨hp, rfl⟩ := notifyAll_some h
    exact turned_notify (hp ▸ .doneNotify) (notifyAll_woken Thread.isWaiting wake s.pc)
  | spurious w =>
    simp only [step, Option.ite_none_right_eq_some, Option.some.injEq] at h
    obtain ⟨hw, rfl⟩ := h
    obtain ⟨l, hl⟩ := isWaiting_iff.mp hw
    have hturn : Turn n s.shared (s.pc w) (wake (s.pc w)) s.shared := by
      rw [hl]
      exact .wake
    exact turned_goto (x := s.shared) (o := s.owner) hturn

end

/-! ## What a thread knows -/

/-- How many items have been pushed. -/
def ProducerPc.pushed (n : Nat) : ProducerPc → Nat
  | .lock i | .push i => i
  | .unlock i | .notify i => i + 1
  | _ => n

/-- There is an item to push, or one whose push has not been notified. -/
def ProducerPc.bounded (n : Nat) : ProducerPc → Prop
  | .lock i | .push i | .unlock i | .notify i => i < n
  | _ => True

def ProducerPc.isDone : ProducerPc → Bool
  | .doneUnlock | .doneNotify | .returned => true
  | _ => false

def ConsumerPc.knows (x : Shared) : ConsumerPc → Prop
  | .wait => x.buffer = [] ∧ x.done = false
  | .leave => x.buffer = []
  | .unlock last => x.buffer = [] ∧ (last = true → x.done = true)
  | .returned => x.buffer = [] ∧ x.done = true
  | _ => True

def Knows (n : Nat) (x : Shared) : Thread → Prop
  | .producer pc => x.popped ++ x.buffer = List.range (pc.pushed n) ∧ pc.bounded n ∧ x.done = pc.isDone
  | .consumer pc l => l.Sublist x.popped ∧ pc.knows x

/-- `none` runs `producer`, the others run `consumer`. -/
def Fits {C : Type} : Option C → Thread → Prop
  | none, .producer _ => True
  | some _, .consumer _ _ => True
  | _, _ => False

section
variable {n : Nat} {x x' : Shared} {c c' d : Thread}

theorem ready_eq_false : ready x = false ↔ x.buffer = [] ∧ x.done = false := by
  simp [ready]

theorem knows_next {i : Nat} (h : i < n) (hx : x.popped ++ x.buffer = List.range (i + 1)) (hd : x.done = false) :
    Knows n x (.producer (next n (i + 1))) := by
  unfold next
  split
  · exact ⟨hx, ‹_›, hd⟩
  · obtain rfl : n = i + 1 := by omega
    exact ⟨hx, trivial, hd⟩

theorem Turn.knows (h : Turn n x c c' x') (hk : Knows n x c) : Knows n x' c' := by
  cases h with
  | push =>
    obtain ⟨hx, hi, hd⟩ := hk
    refine ⟨?_, hi, hd⟩
    show x.popped ++ (x.buffer ++ [_]) = List.range (_ + 1)
    rw [← List.append_assoc, hx, List.range_succ]
    rfl
  | notify => exact knows_next hk.2.1 hk.1 hk.2.2
  | doneSet => exact ⟨hk.1, trivial, rfl⟩
  | ready _ => exact ⟨hk.1, trivial⟩
  | wait hr => exact ⟨hk.1, ready_eq_false.mp hr⟩
  | sleep => exact ⟨hk.1, trivial⟩
  | pop _ => exact ⟨hk.1.append_right _, trivial⟩
  | drained hb => exact ⟨hk.1, hb⟩
  | leave => exact ⟨hk.1, hk.2, fun h => (Bool.and_eq_true_iff.mp h).1⟩
  | again => exact ⟨hk.1, trivial⟩
  | last => exact ⟨hk.1, hk.2.1, hk.2.2 rfl⟩
  | _ => exact hk

/-- What the thread without the mutex knows stays true when the other thread moves. -/
theorem Turn.stable (h : Turn n x c c' x') (hk : Knows n x c) (hd : Knows n x d) (hh : d.holds = false)
    (hone : ∀ p q, c = .producer p → d = .producer q → False) : Knows n x' d := by
  cases h with
  | push =>
    cases d with
    | producer q => exact (hone _ _ rfl rfl).elim
    | consumer pc l =>
      refine ⟨hd.1, ?_⟩
      cases pc with
      | returned => exact absurd (hd.2.2.symm.trans hk.2.2) Bool.noConfusion
      | _ => trivial
  | doneSet =>
    cases d with
    | producer q => exact (hone _ _ rfl rfl).elim
    | consumer pc l =>
      refine ⟨hd.1, ?_⟩
      cases pc with
      | returned => exact ⟨hd.2.1, rfl⟩
      | _ => trivial
  | pop hb =>
    cases d with
    | producer q =>
      refine ⟨?_, hd.2⟩
      show (x.popped ++ [_]) ++ _ = _
      rw [← hd.1, hb, List.append_assoc]
      rfl
    | consumer pc l =>
      refine ⟨hd.1.trans (List.sublist_append_left _ _), ?_⟩
      cases pc with
      | returned =>
        rw [hd.2.1] at hb
        cases hb
      | _ => trivial
  | _ => exact hd

theorem Turn.fits {C : Type} {t : Option C} (h : Turn n x c c' x') (hf : Fits t c) : Fits t c' := by
  cases t with
  | none => cases h <;> trivial
  | some t => cases h <;> trivial

theorem producer_of_fits {C : Type} (h : Fits (none : Option C) c) : ∃ pc, c = .producer pc := by
  cases c with
  | producer pc => exact ⟨pc, rfl⟩
  | consumer pc l => cases h

theorem consumer_of_fits {C : Type} {t : C} (h : Fits (some t) c) : ∃ pc l, c = .consumer pc l := by
  cases c with
  | producer pc => cases h
  | consumer pc l => exact ⟨pc, l, rfl⟩

theorem none_of_fits {C : Type} {t : Option C} {pc : ProducerPc} (h : Fits t (.producer pc)) : t = none := by
  cases t with
  | none => rfl
  | some t => cases h

/-- A consumer that is not waiting while there is an item, is about to look at the buffer. -/
def Thread.isAwake : Thread → Bool
  | .consumer .lock _ | .consumer .check _ | .consumer .woken _ | .consumer .drain _ => true
  | _ => false

def Thread.isPending : Thread → Bool
  | .producer (.unlock _) | .producer (.notify _) => true
  | _ => false

def Thread.isNotifying : Thread → Bool
  | .producer .doneUnlock | .producer .doneNotify => true
  | _ => false

/-- The vector of a consumer. -/
def Thread.consumed : Thread → List Nat
  | .consumer _ l => l
  | .producer _ => []

theorem Turn.consumed (h : Turn n x c c' x') :
    (x'.popped : Multiset Nat) + c.consumed = x.popped + c'.consumed := by
  cases h with
  | @pop l val buffer hb =>
    show ((x.popped ++ [val] : List Nat) : Multiset Nat) + (l : Multiset Nat) =
      x.popped + ((l ++ [val] : List Nat) : Multiset Nat)
    rw [← Multiset.coe_add, ← Multiset.coe_add, add_assoc, add_comm (l : Multiset Nat)]
  | _ => rfl

/-- Only a consumer that finds nothing goes to sleep. -/
theorem Turn.sleeps (h : Turn n x c c' x') (hk : Knows n x c) (hc' : c'.isWaiting = true) :
    x' = x ∧ x.buffer = [] ∧ x.done = false := by
  cases h with
  | sleep => exact ⟨rfl, hk.2⟩
  | notify =>
    cases hc'
  | _ => cases hc'

theorem Turn.wakes (h : Turn n x c c' x') (hc : c.isWaiting = true) : c'.isWaiting = false := by
  cases h with
  | wake => rfl
  | _ => cases hc

theorem Turn.pending (h : Turn n x c c' x') (hb : x.buffer = [] ∧ x'.buffer ≠ [] ∨ c.isPending = true) :
    c'.isPending = true ∨ ∃ i, c = .producer (.notify i) := by
  cases h with
  | push => exact .inl rfl
  | pushUnlock => exact .inl rfl
  | notify => exact .inr ⟨_, rfl⟩
  | pop h =>
    rcases hb with ⟨hb, _⟩ | hc
    · rw [hb] at h
      cases h
    · cases hc
  | _ =>
    rcases hb with ⟨hb, hb'⟩ | hc
    · exact absurd hb hb'
    · cases hc

theorem Turn.done (h : Turn n x c c' x') : x'.done = x.done ∨ c = .producer .doneSet := by
  cases h with
  | doneSet => exact .inr rfl
  | _ => exact .inl rfl

theorem Turn.notifying (h : Turn n x c c' x') (hd : x.done = false ∧ x'.done = true ∨ c.isNotifying = true) :
    c'.isNotifying = true ∨ c = .producer .doneNotify := by
  cases h with
  | doneSet => exact .inl rfl
  | doneUnlock => exact .inl rfl
  | doneNotify => exact .inr rfl
  | _ =>
    rcases hd with ⟨hd, hd'⟩ | hc
    · exact absurd (hd.symm.trans hd') Bool.noConfusion
    · cases hc

theorem awake_of_item {l : List Nat} {pc : ConsumerPc} (hk : Knows n x (.consumer pc l)) (hb : x.buffer ≠ [])
    (hw : (Thread.consumer pc l).isWaiting = false) : (Thread.consumer pc l).isAwake = true := by
  cases pc with
  | wait => exact absurd hk.2.1 hb
  | leave => exact absurd hk.2 hb
  | unlock last => exact absurd hk.2.1 hb
  | returned => exact absurd hk.2.1 hb
  | waiting => cases hw
  | _ => rfl

end

/-! ## The invariant -/

section
variable {C : Type} [Fintype C] {n : Nat} {s s' : State C}

structure Inv (n : Nat) (s : State C) : Prop where
  exclusive : program.Exclusive s
  fits : ∀ t, Fits t (s.pc t)
  knows : ∀ t, Knows n s.shared (s.pc t)
  consumed : (s.shared.popped : Multiset Nat) = ∑ t, ((s.pc t).consumed : Multiset Nat)
  item : Nonempty C → s.shared.buffer ≠ [] → (s.pc none).isPending = true ∨ ∃ c, (s.pc (some c)).isWaiting = false
  done : s.shared.done = true → (∃ c, (s.pc (some c)).isWaiting = true) → (s.pc none).isNotifying = true

variable [DecidableEq C] {t : Option C}

theorem Inv.knows_turned (h : Inv n s) (hturn : Turned n s t s') (u : Option C) : Knows n s'.shared (s'.pc u) := by
  by_cases hu : u = t
  · subst hu
    exact hturn.1.knows (h.knows u)
  have hstable : (s.pc u).holds = false ∨ s'.shared = s.shared → Knows n s'.shared (s.pc u) := by
    rintro (hh | he)
    · refine hturn.1.stable (h.knows t) (h.knows u) hh fun p q hp hq => ?_
      exact hu ((none_of_fits (hq ▸ h.fits u)).trans (none_of_fits (hp ▸ h.fits t)).symm)
    · rw [he]
      exact h.knows u
  rcases hturn.2 u hu with he | ⟨hw, he⟩
  · rw [he]
    refine hstable ?_
    rcases hturn.1.shared with hx | ht
    · exact .inr hx
    · exact .inl (Bool.eq_false_iff.mpr fun hh => hu (h.exclusive.eq hh ht))
  · obtain ⟨l, hl⟩ := isWaiting_iff.mp hw
    have hk := hstable (.inl (by rw [hl]; rfl))
    rw [he, hl]
    rw [hl] at hk
    exact hk

omit [Fintype C] in
/-- A thread that waits after the step waited before, or found nothing. -/
theorem Turned.waiting (hturn : Turned n s t s') (hk : Knows n s.shared (s.pc t)) {u : Option C}
    (hw : (s'.pc u).isWaiting = true) :
    (s.pc u).isWaiting = true ∨ s'.shared = s.shared ∧ s.shared.buffer = [] ∧ s.shared.done = false := by
  by_cases hu : u = t
  · subst hu
    exact .inr (hturn.1.sleeps hk hw)
  · rcases hturn.2 u hu with he | ⟨h, _⟩
    · exact .inl (he ▸ hw)
    · exact .inl h

omit [Fintype C] in
theorem Turned.exclusive (hturn : Turned n s t s') (hex : program.Exclusive s) (ho : s'.owner = s.owner)
    (ht : (s'.pc t).holds = (s.pc t).holds) : program.Exclusive s' := by
  refine hex.congr ho fun u => ?_
  by_cases hu : u = t
  · rw [hu]
    exact ht
  · rcases hturn.2 u hu with he | ⟨hw, he⟩
    · rw [he]
    · obtain ⟨l, hl⟩ := isWaiting_iff.mp hw
      rw [he, hl]
      rfl

theorem Inv.exclusive_step (h : Inv n s) {a : Act C} (hs : MutexCondvar.step n s a = some s') :
    program.Exclusive s' := by
  have hturn := turned_step hs
  cases a with
  | acquire t => exact h.exclusive.acquireStep hs
  | release t => exact h.exclusive.releaseStep hs
  | inside t => exact h.exclusive.insideStep hs
  | notifyOne w =>
    obtain ⟨i, pc, hp, _, rfl⟩ := notifyOne_some hs
    apply hturn.exclusive h.exclusive rfl
    show (Function.update pc none (Thread.producer (next n (i + 1))) none).holds = (s.pc none).holds
    rw [Function.update_self, hp, next]
    split <;> rfl
  | notifyAll =>
    obtain ⟨hp, rfl⟩ := notifyAll_some hs
    apply hturn.exclusive h.exclusive rfl
    show (Function.update (notifyAll Thread.isWaiting wake s.pc) none (.producer .returned) none).holds =
      (s.pc none).holds
    rw [Function.update_self, hp]
    rfl
  | spurious w =>
    simp only [MutexCondvar.step, Option.ite_none_right_eq_some, Option.some.injEq] at hs
    obtain ⟨hw, rfl⟩ := hs
    obtain ⟨l, hl⟩ := isWaiting_iff.mp hw
    apply hturn.exclusive h.exclusive rfl
    show (Function.update s.pc w (wake (s.pc w)) w).holds = (s.pc w).holds
    rw [Function.update_self, hl]
    rfl

theorem Inv.consumed_turned (h : Inv n s) (hturn : Turned n s t s') :
    (s'.shared.popped : Multiset Nat) = ∑ u, ((s'.pc u).consumed : Multiset Nat) := by
  have hsum : (s.shared.popped : Multiset Nat) + ∑ u, ((s'.pc u).consumed : Multiset Nat) =
      s'.shared.popped + ∑ u, ((s.pc u).consumed : Multiset Nat) := by
    apply sum_balance (t := t)
    · intro u hu
      rcases hturn.2 u hu with he | ⟨hw, he⟩
      · rw [he]
      · obtain ⟨l, hl⟩ := isWaiting_iff.mp hw
        rw [he, hl]
        rfl
    · exact hturn.1.consumed.symm
  rw [← h.consumed, add_comm] at hsum
  exact (add_right_cancel hsum).symm

/-- A producer that is to notify does nothing else. -/
theorem act_of_notify {a : Act C} (hs : step n s a = some s') (hp : acquire (s.pc none) = none)
    (hr : release (s.pc none) = none) (hi : inside s.shared (s.pc none) = none) (hw : (s.pc none).isWaiting = false)
    (hmoved : s'.pc none ≠ s.pc none) :
    a = .notifyAll ∨ ∃ w, a = .notifyOne w := by
  have hself : a.thread = none := by
    by_contra hne
    rcases (turned_step hs).2 none (Ne.symm hne) with he | ⟨h, _⟩
    · exact hmoved he
    · rw [hw] at h
      cases h
  cases a with
  | acquire t =>
    obtain rfl : t = none := hself
    obtain ⟨c, _, hc, _⟩ := Program.acquireStep_some hs
    cases hp.symm.trans hc
  | release t =>
    obtain rfl : t = none := hself
    obtain ⟨c, hc, _⟩ := Program.releaseStep_some hs
    cases hr.symm.trans hc
  | inside t =>
    obtain rfl : t = none := hself
    obtain ⟨x, c, hc, _⟩ := Program.insideStep_some hs
    cases hi.symm.trans hc
  | notifyOne w => exact .inr ⟨w, rfl⟩
  | notifyAll => exact .inl rfl
  | spurious w =>
    obtain rfl : w = none := hself
    simp [step, hw] at hs

theorem awake_notifyOne {w : Option (Option C)} (hs : step n s (.notifyOne w) = some s') (hne : Nonempty C) :
    ∃ c, (s'.pc (some c)).isWaiting = false := by
  obtain ⟨i, pc, hp, hn, rfl⟩ := notifyOne_some hs
  have hother : ∀ c, Function.update pc none (.producer (next n (i + 1))) (some c) = pc (some c) :=
    fun c => Function.update_of_ne (by simp) _ _
  rcases notifyOne_cases hn with ⟨hnone, rfl⟩ | ⟨u, hu, rfl⟩
  · obtain ⟨c⟩ := hne
    exact ⟨c, (congrArg Thread.isWaiting (hother c)).trans (hnone _)⟩
  · cases u with
    | none =>
      rw [hp] at hu
      cases hu
    | some c =>
      obtain ⟨l, hl⟩ := isWaiting_iff.mp hu
      refine ⟨c, (congrArg Thread.isWaiting (hother c)).trans ?_⟩
      rw [Function.update_self, hl]
      rfl

theorem awake_notifyAll (hs : step n s .notifyAll = some s') (c : C) : (s'.pc (some c)).isWaiting = false := by
  obtain ⟨hp, rfl⟩ := notifyAll_some hs
  show (Function.update (notifyAll Thread.isWaiting wake s.pc) none (.producer .returned) (some c)).isWaiting =
    false
  rw [Function.update_of_ne (by simp)]
  rcases notifyAll_cases Thread.isWaiting wake s.pc (some c) with ⟨hw, he⟩ | ⟨hw, he⟩
  · rw [he, hw]
  · obtain ⟨l, hl⟩ := isWaiting_iff.mp hw
    rw [he, hl]
    rfl

theorem Inv.item_step (h : Inv n s) {a : Act C} (hs : step n s a = some s') (hne : Nonempty C)
    (hb : s'.shared.buffer ≠ []) : (s'.pc none).isPending = true ∨ ∃ c, (s'.pc (some c)).isWaiting = false := by
  have hturn := turned_step hs
  by_contra hcon
  obtain ⟨hp, hall⟩ := not_or.mp hcon
  have hwaits : ∀ c, (s'.pc (some c)).isWaiting = true := fun c => by simpa using fun hw => hall ⟨c, hw⟩
  have hwaited : ∀ c, (s.pc (some c)).isWaiting = true := by
    intro c
    rcases hturn.waiting (h.knows _) (hwaits c) with hw | ⟨hx, hnil, _⟩
    · exact hw
    · rw [hx] at hb
      exact absurd hnil hb
  have hself : a.thread = none := by
    cases ht : a.thread with
    | none => rfl
    | some c =>
      have hw := hturn.1.wakes (ht ▸ hwaited c)
      rw [ht, hwaits] at hw
      cases hw
  have hmove := hturn.1
  rw [hself] at hmove
  have hpend : s.shared.buffer = [] ∧ s'.shared.buffer ≠ [] ∨ (s.pc none).isPending = true := by
    by_cases hold : s.shared.buffer = []
    · exact .inl ⟨hold, hb⟩
    · exact .inr ((h.item hne hold).resolve_right fun ⟨c, hc⟩ => by rw [hwaited c] at hc; cases hc)
  rcases hmove.pending hpend with hp' | ⟨i, hi⟩
  · exact hp hp'
  · have hmoved : s'.pc none ≠ s.pc none := by
      intro he
      rw [he, hi] at hp
      exact hp rfl
    rcases act_of_notify hs (by rw [hi]; rfl) (by rw [hi]; rfl) (by rw [hi]; rfl)
      (by rw [hi]; rfl) hmoved with rfl | ⟨w, rfl⟩
    · rw [(notifyAll_some hs).1] at hi
      cases hi
    · exact hall (awake_notifyOne hs hne)

theorem Inv.done_step (h : Inv n s) {a : Act C} (hs : step n s a = some s') (hd : s'.shared.done = true)
    (hw : ∃ c, (s'.pc (some c)).isWaiting = true) : (s'.pc none).isNotifying = true := by
  have hturn := turned_step hs
  have hwaited : ∃ c, (s.pc (some c)).isWaiting = true := by
    obtain ⟨c, hc⟩ := hw
    rcases hturn.waiting (h.knows _) hc with hc | ⟨hx, _, hdone⟩
    · exact ⟨c, hc⟩
    · rw [hx, hdone] at hd
      cases hd
  by_cases hself : a.thread = none
  · have hmove := hturn.1
    rw [hself] at hmove
    have hnot : s.shared.done = false ∧ s'.shared.done = true ∨ (s.pc none).isNotifying = true := by
      cases hold : s.shared.done with
      | false => exact .inl ⟨rfl, hd⟩
      | true => exact .inr (h.done hold hwaited)
    rcases hmove.notifying hnot with hn | hp
    · exact hn
    · by_contra hcon
      have hmoved : s'.pc none ≠ s.pc none := by
        intro he
        rw [he, hp] at hcon
        exact hcon rfl
      rcases act_of_notify hs (by rw [hp]; rfl) (by rw [hp]; rfl) (by rw [hp]; rfl)
        (by rw [hp]; rfl) hmoved with rfl | ⟨w, rfl⟩
      · obtain ⟨c, hc⟩ := hw
        rw [awake_notifyAll hs] at hc
        cases hc
      · obtain ⟨i, _, hi, _⟩ := notifyOne_some hs
        rw [hp] at hi
        cases hi
  · have hsame : s'.pc none = s.pc none := by
      rcases hturn.2 none (Ne.symm hself) with he | ⟨hw, _⟩
      · exact he
      · obtain ⟨pc, hpc⟩ := producer_of_fits (h.fits none)
        rw [hpc] at hw
        cases hw
    rw [hsame]
    rcases hturn.1.done with he | hp
    · exact h.done (he ▸ hd) hwaited
    · exact absurd (none_of_fits (hp ▸ h.fits _)) hself

theorem Inv.step (h : Inv n s) {a : Act C} (hs : step n s a = some s') : Inv n s' where
  exclusive := h.exclusive_step hs
  fits u := by
    have hturn := turned_step hs
    by_cases hu : u = a.thread
    · subst hu
      exact hturn.1.fits (h.fits _)
    · rcases hturn.2 u hu with he | ⟨hw, he⟩
      · rw [he]
        exact h.fits u
      · have hf := h.fits u
        obtain ⟨l, hl⟩ := isWaiting_iff.mp hw
        rw [hl] at hf
        rw [he, hl]
        cases u with
        | none => cases hf
        | some c => trivial
  knows := h.knows_turned (turned_step hs)
  consumed := h.consumed_turned (turned_step hs)
  item hne hb := h.item_step hs hne hb
  done hd hw := h.done_step hs hd hw

theorem inv_init : Inv n (producerConsumer C n).init where
  exclusive t := by
    refine iff_of_false nofun ?_
    cases t with
    | none =>
      show ¬ (Thread.producer (next n 0)).holds = true
      unfold next
      split <;> exact Bool.false_ne_true
    | some c => exact Bool.false_ne_true
  fits t := by cases t <;> trivial
  knows t := by
    cases t with
    | none =>
      show Knows n {} (.producer (next n 0))
      unfold next
      split
      · exact ⟨rfl, ‹_›, rfl⟩
      · obtain rfl : n = 0 := by omega
        exact ⟨rfl, trivial, rfl⟩
    | some c => exact ⟨List.Sublist.refl _, trivial⟩
  consumed := by
    symm
    apply Finset.sum_eq_zero
    intro t _
    cases t <;> rfl
  item _ hb := absurd rfl hb
  done hd := nomatch hd

theorem inv_reachable (h : (producerConsumer C n).Reachable s) : Inv n s :=
  h.inv inv_init fun _ _ _ hi hs => hi.step hs

end

/-! ## The run ends -/

/-- What is left for a consumer that finds no more than there is. -/
def ConsumerPc.left (x : Shared) : ConsumerPc → Nat
  | .lock | .woken => 5
  | .check => 4
  | .wait => 1
  | .waiting => 0
  | .drain => if x.buffer = [] ∧ x.done = false then 8 else 3
  | .leave => if x.done then 2 else 7
  | .unlock last => if last then 1 else 6
  | .returned => 0

/-- What is left for the producer, with all that its notifications bring to `k` consumers. -/
def ProducerPc.left (n k : Nat) : ProducerPc → Nat
  | .lock i => 15 * (n - i) + 5 * k + 4
  | .push i => 15 * (n - (i + 1)) + 5 * k + 18
  | .unlock i => 15 * (n - (i + 1)) + 5 * k + 11
  | .notify i => 15 * (n - (i + 1)) + 5 * k + 10
  | .doneLock => 5 * k + 4
  | .doneSet => 5 * k + 3
  | .doneUnlock => 5 * k + 2
  | .doneNotify => 5 * k + 1
  | .returned => 0

def Thread.left (n k : Nat) (x : Shared) : Thread → Nat
  | .producer pc => pc.left n k
  | .consumer pc _ => pc.left x

/-- One step, and what the threads do that it wakes. -/
def Thread.price (k : Nat) : Thread → Nat
  | .producer (.notify _) => 6
  | .producer .doneNotify => 5 * k + 1
  | .consumer .waiting _ => 0
  | _ => 1

section
variable {n k : Nat} {x x' : Shared} {c c' : Thread}

/-- What the others do while one holds the mutex is not changed by what it does. -/
theorem left_congr (hc : c.holds = false) : c.left n k x' = c.left n k x := by
  cases c with
  | producer pc => rfl
  | consumer pc l => cases pc <;> first | rfl | cases hc

theorem left_next {i : Nat} (h : i < n) : (next n (i + 1)).left n k = 15 * (n - (i + 1)) + 5 * k + 4 := by
  unfold next
  split
  · rfl
  · have : n - (i + 1) = 0 := by omega
    simp [this, ProducerPc.left]

theorem Turn.left (h : Turn n x c c' x') (hk : Knows n x c) :
    6 * x'.buffer.length + c'.left n k x' + c.price k ≤
      6 * x.buffer.length + c.left n k x + 5 * c.isWaiting.toNat := by
  cases h with
  | @pushLock i =>
    have hi : i < n := hk.2.1
    show 6 * x.buffer.length + (15 * (n - (i + 1)) + 5 * k + 18) + 1 ≤
      6 * x.buffer.length + (15 * (n - i) + 5 * k + 4) + 5 * 0
    omega
  | @push i =>
    show 6 * (x.buffer ++ [i]).length + (15 * (n - (i + 1)) + 5 * k + 11) + 1 ≤
      6 * x.buffer.length + (15 * (n - (i + 1)) + 5 * k + 18) + 5 * 0
    rw [List.length_append, List.length_singleton]
    omega
  | @notify i =>
    show 6 * x.buffer.length + (next n (i + 1)).left n k + 6 ≤
      6 * x.buffer.length + (15 * (n - (i + 1)) + 5 * k + 10) + 5 * 0
    rw [left_next hk.2.1]
    omega
  | ready hr =>
    have hnot : ¬ (x.buffer = [] ∧ x.done = false) :=
      fun h => Bool.false_ne_true ((ready_eq_false.mpr h).symm.trans hr)
    show 6 * x.buffer.length + (if x.buffer = [] ∧ x.done = false then 8 else 3) + 1 ≤
      6 * x.buffer.length + 4 + 5 * 0
    rw [if_neg hnot]
  | @pop l val buffer hb =>
    show 6 * buffer.length + (if buffer = [] ∧ x.done = false then 8 else 3) + 1 ≤
      6 * x.buffer.length + (if x.buffer = [] ∧ x.done = false then 8 else 3) + 5 * 0
    rw [hb, if_neg (show ¬ (val :: buffer = [] ∧ x.done = false) by simp), List.length_cons]
    split <;> omega
  | drained hb =>
    show 6 * x.buffer.length + (if x.done then 2 else 7) + 1 ≤
      6 * x.buffer.length + (if x.buffer = [] ∧ x.done = false then 8 else 3) + 5 * 0
    cases hd : x.done <;> simp [hb]
  | leave =>
    have hb : x.buffer = [] := hk.2
    show 6 * x.buffer.length + (if x.done && x.buffer.isEmpty then 1 else 6) + 1 ≤
      6 * x.buffer.length + (if x.done then 2 else 7) + 5 * 0
    cases hd : x.done <;> simp [hb]
  | _ =>
    simp only [Thread.left, ConsumerPc.left, ProducerPc.left, Thread.price, Thread.isWaiting, Bool.false_eq_true,
      Bool.toNat_false, Bool.toNat_true, reduceIte]
    omega

end

section
variable {C : Type} [Fintype C] {n : Nat} {s s' : State C} {t : Option C} {c : Thread}

def rest (n : Nat) (s : State C) : Nat :=
  6 * s.shared.buffer.length + ∑ t, (s.pc t).left n (Fintype.card C) s.shared

variable [DecidableEq C]

theorem rest_goto {x : Shared} {o : Option (Option C)} (hmove : Turn n s.shared (s.pc t) c x)
    (hk : Knows n s.shared (s.pc t)) (hx : x = s.shared ∨ ∀ u, u ≠ t → (s.pc u).holds = false) :
    rest n { s.goto t c with shared := x, owner := o } + (s.pc t).price (Fintype.card C) ≤
      rest n s + 5 * (s.pc t).isWaiting.toNat := by
  have hsum := sum_change (t := t) (f := fun u => (s.pc u).left n (Fintype.card C) s.shared)
    (g := fun u => (Function.update s.pc t c u).left n (Fintype.card C) x) fun u hu => by
      rw [Function.update_of_ne hu]
      rcases hx with rfl | hh
      · rfl
      · exact left_congr (hh u hu)
  rw [Function.update_self] at hsum
  have hleft := hmove.left (k := Fintype.card C) hk
  show 6 * x.buffer.length + ∑ u, (Function.update s.pc t c u).left n (Fintype.card C) x + _ ≤
    6 * s.shared.buffer.length + ∑ u, (s.pc u).left n (Fintype.card C) s.shared + _
  omega

/-- A woken thread is worth what it may do until it waits again. -/
theorem rest_wake (hw : (s.pc t).isWaiting = true) (hk : Knows n s.shared (s.pc t)) :
    rest n (s.goto t (wake (s.pc t))) ≤ rest n s + 5 := by
  obtain ⟨l, hl⟩ := isWaiting_iff.mp hw
  have hmove : Turn n s.shared (s.pc t) (wake (s.pc t)) s.shared := by
    rw [hl]
    exact .wake
  have hgoto := rest_goto (o := s.owner) hmove hk (.inl rfl)
  rw [hw, Bool.toNat_true] at hgoto
  exact le_trans (Nat.le_add_right _ _) hgoto

/-- The producer leaves a program point where it notifies. -/
theorem rest_notified (hmove : Turn n s.shared (s.pc none) c s.shared) (hk : Knows n s.shared (s.pc none))
    (hw : (s.pc none).isWaiting = false) :
    rest n (s.goto none c) + (s.pc none).price (Fintype.card C) ≤ rest n s := by
  have hgoto := rest_goto (o := s.owner) hmove hk (.inl rfl)
  rw [hw, Bool.toNat_false] at hgoto
  exact hgoto

theorem rest_notifyOne {w : Option (Option C)} (h : Inv n s) (hs : MutexCondvar.step n s (.notifyOne w) = some s') :
    rest n s' + 1 ≤ rest n s := by
  obtain ⟨i, pc, hp, hn, rfl⟩ := notifyOne_some hs
  have hk := h.knows none
  have hmove : Turn n s.shared (.producer (.notify i)) (.producer (next n (i + 1))) s.shared := .notify
  rcases notifyOne_cases hn with ⟨_, rfl⟩ | ⟨u, hu, rfl⟩
  · have hleft := rest_notified (hp ▸ hmove) hk (by rw [hp]; rfl)
    rw [hp] at hleft
    exact le_trans (Nat.add_le_add_left (show 1 ≤ 6 by decide) _) hleft
  · have hwoken := rest_wake hu (h.knows u)
    have hsame : (s.goto u (wake (s.pc u))).pc none = .producer (.notify i) := by
      refine (Function.update_of_ne ?_ _ _).trans hp
      rintro rfl
      rw [hp] at hu
      cases hu
    have hleft := rest_notified (s := s.goto u (wake (s.pc u))) (hsame ▸ hmove) (by rw [hsame, ← hp]; exact hk)
      (by rw [hsame]; rfl)
    rw [hsame] at hleft
    change _ + 6 ≤ _ at hleft
    show rest n ((s.goto u (wake (s.pc u))).goto none (.producer (next n (i + 1)))) + 1 ≤ rest n s
    omega

theorem rest_notifyAll (h : Inv n s) (hs : MutexCondvar.step n s .notifyAll = some s') :
    rest n s' + 1 ≤ rest n s := by
  obtain ⟨hp, rfl⟩ := notifyAll_some hs
  let s₁ : State C := { s with pc := notifyAll Thread.isWaiting wake s.pc }
  have hsame : s₁.pc none = .producer .doneNotify := by
    show (if (s.pc none).isWaiting then _ else s.pc none) = _
    rw [hp]
    rfl
  have hmove : Turn n s.shared (.producer .doneNotify) (.producer .returned) s.shared := .doneNotify
  have hleft :=
    rest_notified (s := s₁) (hsame ▸ hmove) (by rw [hsame, ← hp]; exact h.knows none) (by rw [hsame]; rfl)
  rw [hsame] at hleft
  change _ + (5 * Fintype.card C + 1) ≤ _ at hleft
  have hwoken : rest n s₁ ≤ rest n s + 5 * Fintype.card C := by
    have hone : ∀ c : C, (s₁.pc (some c)).left n (Fintype.card C) s.shared ≤
        (s.pc (some c)).left n (Fintype.card C) s.shared + 5 := by
      intro c
      rcases notifyAll_cases Thread.isWaiting wake s.pc (some c) with ⟨_, he⟩ | ⟨hw, he⟩
      · rw [show s₁.pc (some c) = _ from he]
        exact Nat.le_add_right _ _
      · obtain ⟨l, hl⟩ := isWaiting_iff.mp hw
        rw [show s₁.pc (some c) = _ from he, hl]
        exact Nat.le_refl 5
    have hsum := Finset.sum_le_sum fun c (_ : c ∈ Finset.univ) => hone c
    have hfive : ∑ _c : C, 5 = Fintype.card C * 5 := Finset.sum_const_nat fun _ _ => rfl
    rw [Finset.sum_add_distrib, hfive] at hsum
    show 6 * s.shared.buffer.length + ∑ t, (s₁.pc t).left n (Fintype.card C) s.shared ≤ _
    rw [rest, Fintype.sum_option, Fintype.sum_option, hsame, hp]
    omega
  show rest n (s₁.goto none (.producer .returned)) + 1 ≤ rest n s
  omega

/-- **One step**, and six for a wakeup that nobody asked for. -/
theorem rest_step {a : Act C} (h : Inv n s) (hs : MutexCondvar.step n s a = some s') :
    rest n s' + 1 ≤ rest n s + 6 * a.isSpurious.toNat := by
  -- a thread that acquires, releases or holds the mutex neither waits nor notifies
  have hprice : ∀ c : Thread, ((acquire c).isSome ∨ c.holds = true) →
      c.price (Fintype.card C) = 1 ∧ c.isWaiting = false := by
    intro c hc
    cases c with
    | producer pc => cases pc <;> first | exact ⟨rfl, rfl⟩ | simp [acquire, Thread.holds] at hc
    | consumer pc l => cases pc <;> first | exact ⟨rfl, rfl⟩ | simp [acquire, Thread.holds] at hc
  cases a with
  | acquire t =>
    obtain ⟨c, _, hc, rfl⟩ := Program.acquireStep_some hs
    have hgoto := rest_goto (o := some t) (turn_acquire hc) (h.knows t) (.inl rfl)
    obtain ⟨h₁, h₂⟩ := hprice _ (.inl (Option.isSome_of_eq_some hc))
    rw [h₁, h₂] at hgoto
    exact hgoto
  | release t =>
    obtain ⟨c, hc, rfl⟩ := Program.releaseStep_some hs
    have hgoto := rest_goto (o := none) (turn_release hc) (h.knows t) (.inl rfl)
    obtain ⟨h₁, h₂⟩ := hprice _ (.inr (program.holds_release hc).1)
    rw [h₁, h₂] at hgoto
    exact hgoto
  | inside t =>
    obtain ⟨x, c, hc, rfl⟩ := Program.insideStep_some hs
    have hh := (program.holds_inside hc).1
    have hgoto := rest_goto (o := s.owner) (turn_inside hc) (h.knows t)
      (.inr fun u hu => Bool.eq_false_iff.mpr fun hu' => hu (h.exclusive.eq hu' hh))
    obtain ⟨h₁, h₂⟩ := hprice _ (.inr hh)
    rw [h₁, h₂] at hgoto
    exact hgoto
  | notifyOne w => exact rest_notifyOne h hs
  | notifyAll => exact rest_notifyAll h hs
  | spurious w =>
    simp only [MutexCondvar.step, Option.ite_none_right_eq_some, Option.some.injEq] at hs
    obtain ⟨hw, rfl⟩ := hs
    exact Nat.succ_le_succ (rest_wake hw (h.knows w))

theorem rest_init : rest n (producerConsumer C n).init = 15 * n + 10 * Fintype.card C + 4 := by
  have hconsumers :
      ∑ c : C, ((producerConsumer C n).init.pc (some c)).left n (Fintype.card C) {} = Fintype.card C * 5 :=
    Finset.sum_const_nat fun _ _ => rfl
  have hproducer :
      ((producerConsumer C n).init.pc none).left n (Fintype.card C) {} = 15 * n + 5 * Fintype.card C + 4 := by
    show (next n 0).left n (Fintype.card C) = _
    unfold next
    split
    · rfl
    · obtain rfl : n = 0 := by omega
      exact (Nat.zero_add _).symm
  show 6 * 0 + ∑ t, ((producerConsumer C n).init.pc t).left n (Fintype.card C) {} = _
  rw [Fintype.sum_option, hproducer, hconsumers]
  omega

theorem rest_run (acts : List (Act C)) (h : Inv n s) (hrun : (producerConsumer C n).run s acts = some s') :
    rest n s' + acts.length ≤ rest n s + 6 * acts.countP Act.isSpurious := by
  induction acts generalizing s with
  | nil =>
    obtain rfl := Option.some.inj hrun
    exact Nat.le_refl _
  | cons a acts ih =>
    obtain ⟨u, hs, hrun⟩ := Option.bind_eq_some_iff.mp hrun
    have hstep := rest_step h hs
    have hrest := ih (h.step hs) hrun
    have hcount : (a :: acts).countP Act.isSpurious = acts.countP Act.isSpurious + a.isSpurious.toNat := by
      rw [List.countP_cons]
      cases a.isSpurious <;> rfl
    rw [List.length_cons, hcount]
    omega

/-! ## What cannot go on has returned -/

def Thread.isReturned : Thread → Bool
  | .producer .returned | .consumer .returned _ => true
  | _ => false

def Stuck (n : Nat) (s : State C) : Prop := ∀ a : Act C, a.isSpurious = false → MutexCondvar.step n s a = none

theorem Inv.producer_returned (h : Inv n s) (hstuck : Stuck n s)
    (hidle : ∀ t, (acquire (s.pc t)).isNone ∧ (s.pc t).holds = false) : s.pc none = .producer .returned := by
  obtain ⟨pc, hpc⟩ := producer_of_fits (h.fits none)
  have hnone := hidle none
  rw [hpc] at hnone ⊢
  cases pc with
  | notify i =>
    obtain ⟨w, pc', hn⟩ := exists_notifyOne Thread.isWaiting wake s.pc
    have hs := hstuck (.notifyOne w) rfl
    simp [MutexCondvar.step, hpc, hn] at hs
  | doneNotify =>
    have hs := hstuck .notifyAll rfl
    simp [MutexCondvar.step, hpc] at hs
  | returned => rfl
  | _ => simp [acquire, Thread.holds] at hnone

theorem Inv.returned (h : Inv n s) (hstuck : Stuck n s) (t : Option C) : (s.pc t).isReturned = true := by
  have hidle : ∀ t, (acquire (s.pc t)).isNone ∧ (s.pc t).holds = false := by
    intro t
    by_contra hcon
    have hgo : (acquire (s.pc t)).isSome ∨ (s.pc t).holds = true := by
      by_contra hno
      obtain ⟨h₁, h₂⟩ := not_or.mp hno
      exact hcon ⟨by simpa using h₁, by simpa using h₂⟩
    obtain ⟨u, s', hs | hs | hs⟩ := h.exclusive.progress hgo
    · exact nomatch (hstuck (.acquire u) rfl).symm.trans hs
    · exact nomatch (hstuck (.release u) rfl).symm.trans hs
    · exact nomatch (hstuck (.inside u) rfl).symm.trans hs
  have hproducer := h.producer_returned hstuck hidle
  cases t with
  | none =>
    rw [hproducer]
    rfl
  | some c =>
    obtain ⟨pc, l, hc⟩ := consumer_of_fits (h.fits (some c))
    have hcidle := hidle (some c)
    rw [hc] at hcidle ⊢
    cases pc with
    | waiting =>
      have hdone := (h.knows none)
      rw [hproducer] at hdone
      have := h.done hdone.2.2 ⟨c, by rw [hc]; rfl⟩
      rw [hproducer] at this
      cases this
    | returned => rfl
    | _ => simp [acquire, Thread.holds] at hcidle

/-! ## The two loops -/

/-- What holds at any time: the items are popped in the order of the pushes, each by one consumer, and nobody sleeps
through an item or through the end. -/
structure Ok (n : Nat) (s : State C) : Prop where
  fifo : ∃ i, i ≤ n ∧ s.shared.popped ++ s.shared.buffer = List.range i
  vectors : ∀ c, (s.pc (some c)).consumed.Sublist s.shared.popped
  consumed : ∑ c, ((s.pc (some c)).consumed : Multiset Nat) = s.shared.popped
  item : Nonempty C → s.shared.buffer ≠ [] → (s.pc none).isPending = true ∨ ∃ c, (s.pc (some c)).isAwake = true
  done : s.shared.done = true → (∃ c, (s.pc (some c)).isWaiting = true) → (s.pc none).isNotifying = true

structure Finished (n : Nat) (s : State C) : Prop where
  returned : ∀ t, (s.pc t).isReturned = true
  popped : Nonempty C → s.shared.popped = List.range n
  -- the one consumer of `main`
  vector : ∀ c, (∀ d, d = c) → (s.pc (some c)).consumed = List.range n

omit [DecidableEq C] in
theorem Inv.ok (h : Inv n s) : Ok n s := by
  obtain ⟨pc, hpc⟩ := producer_of_fits (h.fits none)
  have hproducer := h.knows none
  rw [hpc] at hproducer
  have hknows : ∀ c, ∃ pc l, s.pc (some c) = .consumer pc l ∧ Knows n s.shared (.consumer pc l) := by
    intro c
    obtain ⟨pc, l, hc⟩ := consumer_of_fits (h.fits (some c))
    exact ⟨pc, l, hc, hc ▸ h.knows (some c)⟩
  refine ⟨⟨pc.pushed n, ?_, hproducer.1⟩, fun c => ?_, ?_, fun hne hb => (h.item hne hb).imp_right ?_, h.done⟩
  · have hbounded := hproducer.2.1
    cases pc <;> first | exact Nat.le_refl n | exact hbounded | exact Nat.le_of_lt hbounded
  · obtain ⟨_, l, hc, hk⟩ := hknows c
    rw [hc]
    exact hk.1
  · rw [h.consumed, Fintype.sum_option, hpc]
    exact (zero_add _).symm
  · rintro ⟨c, hw⟩
    obtain ⟨_, l, hc, hk⟩ := hknows c
    rw [hc] at hw
    exact ⟨c, hc ▸ awake_of_item hk hb hw⟩

theorem Inv.finished (h : Inv n s) (hstuck : Stuck n s) : Finished n s := by
  have hreturned := h.returned hstuck
  have hpopped : Nonempty C → s.shared.popped = List.range n := by
    rintro ⟨c⟩
    obtain ⟨pc, hpc⟩ := producer_of_fits (h.fits none)
    obtain ⟨pc', l, hc⟩ := consumer_of_fits (h.fits (some c))
    have hp := hreturned none
    have hp' := hreturned (some c)
    have hk := h.knows none
    have hk' := h.knows (some c)
    rw [hpc] at hp hk
    rw [hc] at hp' hk'
    cases pc <;> cases hp
    cases pc' <;> cases hp'
    have hrange := hk.1
    rw [hk'.2.1, List.append_nil] at hrange
    exact hrange
  refine ⟨hreturned, hpopped, fun c hone => ?_⟩
  have hsum := h.ok.consumed
  have huniv : (Finset.univ : Finset C) = {c} := by
    ext d
    simp [hone d]
  rw [huniv, Finset.sum_singleton] at hsum
  rw [← hpopped ⟨c⟩]
  exact (h.ok.vectors c).eq_of_length (Multiset.coe_eq_coe.mp hsum).length_eq

/-- **The producer and its consumers**, for any number of items and of consumers and any interleaving. -/
theorem producerConsumer_runs (C : Type) [Fintype C] [DecidableEq C] (n : Nat) :
    (∀ s, (producerConsumer C n).Reachable s → Ok n s ∧ (Stuck n s → Finished n s)) ∧
      ∀ acts s, (producerConsumer C n).run (producerConsumer C n).init acts = some s →
        acts.length ≤ 15 * n + 10 * Fintype.card C + 4 + 6 * acts.countP Act.isSpurious := by
  constructor
  · intro s hs
    have h := inv_reachable hs
    exact ⟨h.ok, h.finished⟩
  · intro acts s hrun
    have hrest := rest_run acts inv_init hrun
    rw [rest_init] at hrest
    omega

end

/-- The consumer sleeps when the item comes, and again when the producer is done. -/
def oneItem : List (Act Unit) :=
  let consumer := some ()
  [.acquire consumer, .inside consumer, .release consumer, .acquire none, .inside none, .release none,
    .notifyOne (some consumer), .acquire consumer, .inside consumer, .inside consumer, .inside consumer,
    .inside consumer, .release consumer, .acquire consumer, .inside consumer, .release consumer, .acquire none,
    .inside none, .release none, .notifyAll, .acquire consumer, .inside consumer, .inside consumer,
      .inside consumer, .release consumer]

theorem producerConsumer_runs_one :
    ∃ s, (producerConsumer Unit 1).run (producerConsumer Unit 1).init oneItem = some s ∧
    (s.pc (some ())).consumed = [0] ∧ Ok 1 s ∧ Finished 1 s ∧ oneItem.length ≤ 29 := by
  have hrun : ∃ s, (producerConsumer Unit 1).run (producerConsumer Unit 1).init oneItem = some s ∧
      (s.pc (some ())).consumed = [0] ∧ Stuck 1 s := by
    refine ⟨_, rfl, rfl, fun a ha => ?_⟩
    cases a with
    | acquire t => cases t <;> rfl
    | release t => cases t <;> rfl
    | inside t => cases t <;> rfl
    | notifyOne w => rfl
    | notifyAll => rfl
    | spurious w => cases ha
  obtain ⟨s, hrun, hconsumed, hstuck⟩ := hrun
  obtain ⟨hok, hlength⟩ := producerConsumer_runs Unit 1
  obtain ⟨hs, hfinished⟩ := hok s (System.reachable_of_run oneItem .init hrun)
  exact ⟨s, hrun, hconsumed, hs, hfinished hstuck, hlength oneItem s hrun⟩

end Playground.MutexCondvar
