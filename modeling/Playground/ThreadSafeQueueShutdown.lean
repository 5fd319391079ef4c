import Mathlib.Algebra.Order.Group.Multiset
import Playground.ThreadSafeQueueFifo

/-!
# Producers, consumers and `close`

The protocol of `main`, for any number of threads in each part: a producer
pushes its items one after another, a consumer calls `pop` until it returns
`nullopt`, and a closer waits until all producers have finished and then calls
`close`. What each consumer received is recorded as its calls return.
-/

namespace Playground.ThreadSafeQueue

inductive Role (α : Type)
  | producer (items : List α)
  | consumer
  | closer

structure Clients (T α : Type) where
  queue : State T α
  todo : T → List α
  received : T → List α
  -- a consumer that got `nullopt`, a closer that has called `close`
  done : T → Bool

inductive ClientAct (T α : Type)
  | call (t : T)
  | queue (act : Act T α)

section
variable {α : Type}

def Role.items : Role α → List α
  | .producer items => items
  | _ => []

def Pc.isIdle : Pc α → Bool
  | .idle => true
  | _ => false

variable {T : Type}

def finished (role : T → Role α) (s : Clients T α) (t : T) : Bool :=
  match role t with
  | .producer _ => (s.todo t).isEmpty && (s.queue.pc t).isIdle
  | _ => true

variable [DecidableEq T]

/-- A step of the queue, seen by the client whose call returns with it. -/
def returned (s : Clients T α) (q : State T α) : Act T α → Clients T α
  | .release t =>
    match s.queue.pc t with
    | .unlock (some item) =>
      { s with queue := q, received := Function.update s.received t (s.received t ++ [item]) }
    | .unlock none => { s with queue := q, done := Function.update s.done t true }
    | _ => { s with queue := q }
  | _ => { s with queue := q }

variable [Fintype T] (role : T → Role α)

def callStep (s : Clients T α) (t : T) : Option (Clients T α) :=
  match role t with
  | .producer _ =>
    match s.todo t with
    | [] => none
    | item :: rest =>
      (step s.queue (.call t (.push item))).map fun q =>
        { s with queue := q, todo := Function.update s.todo t rest }
  | .consumer => if s.done t then none else (step s.queue (.call t .pop)).map fun q => { s with queue := q }
  | .closer =>
    if s.done t = false ∧ ∀ u, finished role s u = true then
      (step s.queue (.call t .close)).map fun q => { s with queue := q, done := Function.update s.done t true }
    else none

def clientStep (s : Clients T α) : ClientAct T α → Option (Clients T α)
  | .call t => callStep role s t
  | .queue (.call _ _) => none
  | .queue act => (step s.queue act).map fun q => returned s q act

def clients : System (Clients T α) (ClientAct T α) where
  init := ⟨(threadSafeQueue T α).init, fun t => (role t).items, fun _ => [], fun _ => false⟩
  step := clientStep role

/-! ## One step -/

inductive ClientTurn (s : Clients T α) (q : State T α) : T → Clients T α → Prop
  | push {t items item rest} (hr : role t = .producer items) (htodo : s.todo t = item :: rest)
      (hp : s.queue.pc t = .idle) (hq : q.pc t = .pushLock item) (hx : q.shared = s.queue.shared) :
      ClientTurn s q t { s with queue := q, todo := Function.update s.todo t rest }
  | pop {t} (hr : role t = .consumer) (hd : s.done t = false) (hp : s.queue.pc t = .idle) (hq : q.pc t = .popLock)
      (hx : q.shared = s.queue.shared) : ClientTurn s q t { s with queue := q }
  | close {t} (hr : role t = .closer) (hall : ∀ u, finished role s u = true) (hp : s.queue.pc t = .idle)
      (hq : q.pc t = .closeLock) (hx : q.shared = s.queue.shared) :
      ClientTurn s q t { s with queue := q, done := Function.update s.done t true }
  | item {t item} (hp : s.queue.pc t = .unlock (some item)) (hq : q.pc t = .idle) (hx : q.shared = s.queue.shared) :
      ClientTurn s q t { s with queue := q, received := Function.update s.received t (s.received t ++ [item]) }
  | nothing {t} (hp : s.queue.pc t = .unlock none) (hq : q.pc t = .idle) (hx : q.shared = s.queue.shared) :
      ClientTurn s q t { s with queue := q, done := Function.update s.done t true }
  | within {t c} (hp : s.queue.pc t = c) (hidle : c ≠ .idle) (hun : ∀ r, c ≠ .unlock r) :
      ClientTurn s q t { s with queue := q }

variable {role} {s s' : Clients T α}

theorem call_some {q q' : State T α} {t : T} {op : Op α} (h : step q (.call t op) = some q') :
    q.pc t = .idle ∧ q'.pc t = enter op ∧ q'.shared = q.shared := by
  unfold step at h
  cases hp : q.pc t with
  | idle =>
    simp only [hp, Option.some.injEq] at h
    subst h
    exact ⟨rfl, Function.update_self .., rfl⟩
  | _ => simp only [hp, reduceCtorEq] at h

theorem ClientTurn.of_call {t : T} (h : callStep role s t = some s') :
    ∃ act q, step s.queue act = some q ∧ ClientTurn role s q act.thread s' := by
  unfold callStep at h
  cases hr : role t with
  | producer items =>
    rw [hr] at h
    cases htodo : s.todo t with
    | nil => simp [htodo] at h
    | cons item rest =>
      simp only [htodo, Option.map_eq_some_iff] at h
      obtain ⟨q, hq, rfl⟩ := h
      obtain ⟨hp, hp', hx⟩ := call_some hq
      exact ⟨_, q, hq, .push hr htodo hp hp' hx⟩
  | consumer =>
    simp only [hr, Option.ite_none_left_eq_some, Option.map_eq_some_iff] at h
    obtain ⟨hd, q, hq, rfl⟩ := h
    obtain ⟨hp, hp', hx⟩ := call_some hq
    exact ⟨_, q, hq, .pop hr (Bool.eq_false_iff.mpr hd) hp hp' hx⟩
  | closer =>
    simp only [hr, Option.ite_none_right_eq_some, Option.map_eq_some_iff] at h
    obtain ⟨⟨_, hall⟩, q, hq, rfl⟩ := h
    obtain ⟨hp, hp', hx⟩ := call_some hq
    exact ⟨_, q, hq, .close hr hall hp hp' hx⟩

theorem ClientTurn.of_release {t : T} {q : State T α} (h : step s.queue (.release t) = some q) :
    ClientTurn role s q t (returned s q (.release t)) := by
  obtain ⟨c, hc, rfl⟩ := Monitor.Program.releaseStep_some h
  change release (s.queue.pc t) = some c at hc
  have hself : Function.update s.queue.pc t c t = c := Function.update_self ..
  cases hp : s.queue.pc t with
  | unlock r =>
    rw [hp] at hc
    obtain rfl := Option.some.inj hc
    cases r with
    | none =>
      simp only [returned, hp]
      exact .nothing hp hself rfl
    | some item =>
      simp only [returned, hp]
      exact .item hp hself rfl
  | idle =>
    rw [hp] at hc
    cases hc
  | _ =>
    simp only [returned, hp]
    exact .within hp nofun nofun

omit [Fintype T] in
theorem point_of_step {c : Pc α} {r : Option (Pc α)} (hr : r = acquire c ∨ ∃ x, r = (inside x c).map Prod.snd)
    (hs : r.isSome) : c ≠ .idle ∧ ∀ result, c ≠ .unlock result := by
  constructor
  · intro heq
    subst heq
    rcases hr with rfl | ⟨_, rfl⟩ <;> cases hs
  · rintro result rfl
    rcases hr with rfl | ⟨_, rfl⟩ <;> cases hs

theorem ClientTurn.of_step {a : ClientAct T α} (h : clientStep role s a = some s') :
    ∃ act q, step s.queue act = some q ∧ ClientTurn role s q act.thread s' := by
  cases a with
  | call t => exact ClientTurn.of_call h
  | queue act =>
    cases act with
    | call t op => cases h
    | release t =>
      obtain ⟨q, hq, rfl⟩ := Option.map_eq_some_iff.mp h
      exact ⟨.release t, q, hq, ClientTurn.of_release hq⟩
    | acquire t =>
      obtain ⟨q, hq, rfl⟩ := Option.map_eq_some_iff.mp h
      obtain ⟨c, _, hc, _⟩ := Monitor.Program.acquireStep_some hq
      obtain ⟨hp, hun⟩ := point_of_step (Or.inl rfl) (Option.isSome_of_eq_some hc)
      exact ⟨.acquire t, q, hq, .within rfl hp hun⟩
    | inside t =>
      obtain ⟨q, hq, rfl⟩ := Option.map_eq_some_iff.mp h
      obtain ⟨x, c, hc, _⟩ := Monitor.Program.insideStep_some hq
      change inside s.queue.shared (s.queue.pc t) = some (x, c) at hc
      obtain ⟨hp, hun⟩ := point_of_step (Or.inr ⟨s.queue.shared, rfl⟩) (by rw [hc]; rfl)
      exact ⟨.inside t, q, hq, .within rfl hp hun⟩
    | notifyOne t w =>
      obtain ⟨q, hq, rfl⟩ := Option.map_eq_some_iff.mp h
      have hp : s.queue.pc t = .pushNotify := by
        unfold step at hq
        cases hp : s.queue.pc t <;> simp [hp] at hq ⊢
      exact ⟨.notifyOne t w, q, hq, .within hp (by simp) (by simp)⟩
    | notifyAll t =>
      obtain ⟨q, hq, rfl⟩ := Option.map_eq_some_iff.mp h
      have hp : s.queue.pc t = .closeNotify := by
        unfold step at hq
        cases hp : s.queue.pc t <;> simp [hp] at hq ⊢
      exact ⟨.notifyAll t, q, hq, .within hp (by simp) (by simp)⟩
    | spurious t =>
      obtain ⟨q, hq, rfl⟩ := Option.map_eq_some_iff.mp h
      have hp : s.queue.pc t = .waiting := by
        unfold step at hq
        cases hp : s.queue.pc t <;> simp [hp, Pc.isWaiting] at hq ⊢
      exact ⟨.spurious t, q, hq, .within hp (by simp) (by simp)⟩

/-! ## Where the threads of each part can be -/

section
omit [Fintype T] [DecidableEq T]

def fits : Role α → Pc α → Bool
  | _, .idle => true
  | .producer _, .pushLock _ | .producer _, .pushCheck _ | .producer _, .pushThrow => true
  | .producer _, .pushEnqueue _ | .producer _, .pushUnlock | .producer _, .pushNotify => true
  | .consumer, .popLock | .consumer, .popCheck _ | .consumer, .popWait | .consumer, .waiting => true
  | .consumer, .woken | .consumer, .popTake _ | .consumer, .unlock _ => true
  | .closer, .closeLock | .closer, .closeSet | .closer, .closeUnlock | .closer, .closeNotify => true
  | _, _ => false

def Pc.closes : Pc α → Bool
  | .closeLock | .closeSet | .closeUnlock | .closeNotify => true
  | _ => false

def Pc.toPush : Pc α → Multiset α
  | .pushLock item | .pushCheck item | .pushEnqueue item => {item}
  | _ => 0

def Pc.inHand : Pc α → Multiset α
  | .unlock (some item) => {item}
  | _ => 0

variable {x x' : Shared α} {c c' : Pc α} {r : Role α}

theorem fits_turn (h : Turn x c c' x') (hidle : c ≠ .idle) (hf : fits r c = true) : fits r c' = true := by
  cases h with
  | enter op => exact absurd rfl hidle
  | acquire h => cases c <;> cases h <;> cases r <;> first | rfl | cases hf
  | release h => cases c <;> cases h <;> cases r <;> first | rfl | cases hf
  | takeNone hc _ => rcases hc with rfl | ⟨_, rfl⟩ <;> cases r <;> first | rfl | cases hf
  | takeSome hc _ => rcases hc with rfl | ⟨_, rfl⟩ <;> cases r <;> first | rfl | cases hf
  | _ => cases r <;> first | rfl | cases hf

theorem Turn.toPush (h : Turn x c c' x') (hidle : c ≠ .idle)
    (hopen : ∀ item, c = .pushCheck item → x.closed = false) :
    (x'.pushed : Multiset α) + c'.toPush = x.pushed + c.toPush := by
  cases h with
  | enter op => exact absurd rfl hidle
  | acquire h => cases c <;> cases h <;> rfl
  | release h => cases c <;> cases h <;> rfl
  | pushThrow hc => exact absurd (hc.symm.trans (hopen _ rfl)) Bool.noConfusion
  | pushEnqueue => exact add_zero _
  | takeNone hc _ => rcases hc with rfl | ⟨_, rfl⟩ <;> rfl
  | takeSome hc _ => rcases hc with rfl | ⟨_, rfl⟩ <;> rfl
  | _ => rfl

theorem Turn.inHand (h : Turn x c c' x') (hun : ∀ r, c ≠ .unlock r) :
    (x'.popped : Multiset α) + c.inHand = x.popped + c'.inHand := by
  cases h with
  | enter op => cases op <;> rfl
  | acquire h => cases c <;> cases h <;> rfl
  | release h => cases c <;> cases h <;> first | rfl | exact absurd rfl (hun _)
  | takeNone hc _ => rcases hc with rfl | ⟨_, rfl⟩ <;> rfl
  | takeSome hc _ => rcases hc with rfl | ⟨_, rfl⟩ <;> exact add_zero _
  | _ => rfl

theorem Turn.throw_of (h : Turn x c c' x') (hc : c' = .pushThrow) :
    (∃ item, c = .pushCheck item) ∧ x.closed = true := by
  cases h with
  | pushThrow hx => exact ⟨⟨_, rfl⟩, hx⟩
  | enter op => cases op <;> cases hc
  | acquire h => subst hc; cases c <;> cases h
  | release h => subst hc; cases c <;> cases h
  | _ => cases hc

theorem Turn.closed_of (h : Turn x c c' x') (hc : x'.closed = true) : x.closed = true ∨ c = .closeSet := by
  cases h with
  | closeSet => exact Or.inr rfl
  | _ => exact Or.inl hc

theorem Turn.closes_of (h : Turn x c c' x') (hidle : c ≠ .idle) (hc : c'.closes = true) : c.closes = true := by
  cases h with
  | enter op => exact absurd rfl hidle
  | acquire h => cases c <;> cases h <;> first | rfl | cases hc
  | release h => cases c <;> cases h <;> first | rfl | cases hc
  | closeSet => rfl
  | _ => cases hc

theorem Turn.closing (h : Turn x c c' x') (hc : c = .closeLock ∨ c = .closeSet) :
    x'.closed = true ∨ c' = .closeSet := by
  cases h with
  | closeSet => exact Or.inl rfl
  | acquire h => rcases hc with rfl | rfl <;> cases h; exact Or.inr rfl
  | release h => rcases hc with rfl | rfl <;> cases h
  | takeNone ht _ => rcases ht with rfl | ⟨_, rfl⟩ <;> rcases hc with hc | hc <;> cases hc
  | takeSome ht _ => rcases ht with rfl | ⟨_, rfl⟩ <;> rcases hc with hc | hc <;> cases hc
  | _ => rcases hc with hc | hc <;> cases hc

theorem Turn.none_of (h : Turn x c c' x') (hk : Knows x c) (hf : fits r c = true)
    (hc : c' = .unlock none) : x.closed = true ∧ x.queue = [] := by
  cases h with
  | takeNone ht hq =>
    rcases ht with rfl | ⟨_, rfl⟩
    · cases r <;> cases hf
    · refine ⟨?_, hq⟩
      change ready x = true at hk
      rw [ready, hq] at hk
      exact hk
  | enter op => cases op <;> cases hc
  | acquire h => subst hc; cases c <;> cases h
  | release h => subst hc; cases c <;> cases h
  | _ => cases hc

end

/-! ## The invariant -/

variable (role) in
structure ClientsInv (s : Clients T α) : Prop where
  reach : (threadSafeQueue T α).Reachable s.queue
  fits : ∀ t, fits (role t) (s.queue.pc t) = true
  joined : s.queue.shared.closed = true ∨ (∃ t, (s.queue.pc t).closes = true) → ∀ t, finished role s t = true
  no_throw : ∀ t, s.queue.pc t ≠ .pushThrow
  todo : ∀ t, (role t).items = [] → s.todo t = []
  pushes : (s.queue.shared.pushed : Multiset α) + ∑ t, ((s.todo t : Multiset α) + (s.queue.pc t).toPush) =
    ∑ t, ((role t).items : Multiset α)
  pops : (s.queue.shared.popped : Multiset α) = ∑ t, ((s.received t : Multiset α) + (s.queue.pc t).inHand)
  drained : ∀ t, s.queue.pc t = .unlock none → s.queue.shared.closed = true ∧ s.queue.shared.queue = []
  done : ∀ t, role t = .consumer → s.done t = true →
    (s.queue.shared.closed = true ∧ s.queue.shared.queue = []) ∧ s.queue.pc t = .idle
  closing : ∀ t, role t = .closer → s.done t = true →
    s.queue.shared.closed = true ∨ s.queue.pc t = .closeLock ∨ s.queue.pc t = .closeSet

variable {q : State T α} {t : T}

omit [Fintype T] in
theorem ClientTurn.queue (h : ClientTurn role s q t s') : s'.queue = q := by
  cases h <;> rfl

omit [Fintype T] in
theorem ClientTurn.fits (h : ClientTurn role s q t s') (hturn : Turned s.queue t q)
    (hf : ∀ u, fits (role u) (s.queue.pc u) = true) (u : T) : ThreadSafeQueue.fits (role u) (q.pc u) = true := by
  by_cases hu : u = t
  · subst hu
    cases h with
    | push hr _ _ hq _ => rw [hr, hq]; rfl
    | pop hr _ _ hq _ => rw [hr, hq]; rfl
    | close hr _ _ hq _ => rw [hr, hq]; rfl
    | item _ hq _ => rw [hq]; cases role u <;> rfl
    | nothing _ hq _ => rw [hq]; cases role u <;> rfl
    | within hp hidle _ => exact fits_turn hturn.1 (hp ▸ hidle) (hf u)
  · rcases hturn.2 u hu with he | ⟨hw, he⟩
    · rw [he]
      exact hf u
    · have := hf u
      rw [hw] at this
      rw [he]
      cases hr : role u <;> rw [hr] at this <;> first | rfl | cases this

omit [Fintype T] [DecidableEq T] in
theorem finished_producer {items : List α} (hr : role t = .producer items) :
    finished role s t = true ↔ s.todo t = [] ∧ s.queue.pc t = .idle := by
  have hidle : ∀ c : Pc α, c.isIdle = true ↔ c = .idle := by
    intro c
    cases c <;> simp [Pc.isIdle]
  simp only [finished, hr, Bool.and_eq_true, List.isEmpty_iff, hidle]

omit [Fintype T] in
theorem ClientTurn.finished (h : ClientTurn role s q t s') (hturn : Turned s.queue t q) {u : T}
    (hu : finished role s u = true) : ThreadSafeQueue.finished role s' u = true := by
  cases hr : role u with
  | producer items =>
    obtain ⟨htodo, hidle⟩ := (finished_producer hr).mp hu
    have hut : u ≠ t := by
      intro heq
      subst heq
      cases h with
      | push _ ht _ _ _ => simp [ht] at htodo
      | pop hr' _ _ _ _ => simp [hr'] at hr
      | close hr' _ _ _ _ => simp [hr'] at hr
      | item hp _ _ => simp [hp] at hidle
      | nothing hp _ _ => simp [hp] at hidle
      | within hp hne _ => exact hne (hp.symm.trans hidle)
    apply (finished_producer hr).mpr
    constructor
    · cases h with
      | push => exact (Function.update_of_ne hut _ _).trans htodo
      | _ => exact htodo
    · rw [h.queue]
      rcases hturn.2 u hut with he | ⟨hw, _⟩
      · exact he.trans hidle
      · rw [hidle] at hw
        cases hw
  | consumer => simp [ThreadSafeQueue.finished, hr]
  | closer => simp [ThreadSafeQueue.finished, hr]

theorem ClientsInv.joined_turn (h : ClientsInv role s) (hturn : Turned s.queue t q) (hc : ClientTurn role s q t s')
    (hclose : q.shared.closed = true ∨ ∃ u, (q.pc u).closes = true) (u : T) : finished role s' u = true := by
  apply hc.finished hturn
  by_cases hall : ∀ v, finished role s v = true
  · exact hall u
  · apply h.joined
    rcases hclose with hclosed | ⟨v, hv⟩
    · rcases hturn.1.closed_of hclosed with hclosed | hp
      · exact Or.inl hclosed
      · exact Or.inr ⟨t, by rw [hp]; rfl⟩
    · by_cases hvt : v = t
      · subst hvt
        cases hc with
        | push _ _ _ hq _ => rw [hq] at hv; cases hv
        | pop _ _ _ hq _ => rw [hq] at hv; cases hv
        | close _ hall' _ _ _ => exact absurd hall' hall
        | item _ hq _ => rw [hq] at hv; cases hv
        | nothing _ hq _ => rw [hq] at hv; cases hv
        | within hp hidle _ => exact Or.inr ⟨v, hturn.1.closes_of (hp ▸ hidle) hv⟩
      · rcases hturn.2 v hvt with he | ⟨_, he⟩
        · exact Or.inr ⟨v, he ▸ hv⟩
        · rw [he] at hv
          cases hv

theorem ClientsInv.open (h : ClientsInv role s) {item : α} (hp : s.queue.pc t = .pushCheck item) :
    s.queue.shared.closed = false := by
  by_contra hc
  have hfin := h.joined (Or.inl (by simpa using hc)) t
  have hfit := h.fits t
  cases hr : role t with
  | producer items =>
    have hidle := ((finished_producer hr).mp hfin).2
    rw [hp] at hidle
    cases hidle
  | consumer => rw [hr, hp] at hfit; cases hfit
  | closer => rw [hr, hp] at hfit; cases hfit

theorem ClientsInv.throw_turn (h : ClientsInv role s) (hturn : Turned s.queue t q) (u : T) :
    q.pc u ≠ .pushThrow := by
  intro hu
  by_cases hut : u = t
  · subst hut
    obtain ⟨⟨item, hp⟩, hclosed⟩ := hturn.1.throw_of hu
    rw [h.open hp] at hclosed
    cases hclosed
  · rcases hturn.2 u hut with he | ⟨_, he⟩
    · exact h.no_throw u (he.symm.trans hu)
    · rw [he] at hu
      cases hu

theorem ClientsInv.todo_turn (h : ClientsInv role s) (hc : ClientTurn role s q t s') {u : T}
    (hu : (role u).items = []) : s'.todo u = [] := by
  cases hc with
  | push _ htodo _ _ _ =>
    by_cases hut : u = t
    · subst hut
      rw [h.todo u hu] at htodo
      cases htodo
    · exact (Function.update_of_ne hut _ _).trans (h.todo u hu)
  | _ => exact h.todo u hu

theorem ClientsInv.pushes_turn (h : ClientsInv role s) (hturn : Turned s.queue t q)
    (hc : ClientTurn role s q t s') :
    (q.shared.pushed : Multiset α) + ∑ u, ((s'.todo u : Multiset α) + (q.pc u).toPush) =
      ∑ u, ((role u).items : Multiset α) := by
  rw [← h.pushes]
  apply Monitor.sum_balance (t := t)
  · intro u hu
    have htodo : s'.todo u = s.todo u := by
      cases hc with
      | push => exact Function.update_of_ne hu _ _
      | _ => rfl
    rw [htodo]
    rcases hturn.2 u hu with he | ⟨hw, he⟩
    · rw [he]
    · rw [hw, he]
      rfl
  · cases hc with
    | @push _ item rest _ htodo hp hq hx =>
      have hf : ((s.todo t : Multiset α) + (s.queue.pc t).toPush) = {item} + rest := by
        rw [htodo, hp, ← Multiset.cons_coe, ← Multiset.singleton_add]
        exact add_zero _
      show (q.shared.pushed : Multiset α) + ((Function.update s.todo t rest t : List α) + (q.pc t).toPush) = _
      rw [hf, hx, hq, Function.update_self, add_comm (rest : Multiset α)]
      rfl
    | pop _ _ hp hq hx => rw [hp, hq, hx]; rfl
    | close _ _ hp hq hx => rw [hp, hq, hx]; rfl
    | item hp hq hx => rw [hp, hq, hx]; rfl
    | nothing hp hq hx => rw [hp, hq, hx]; rfl
    | within hp hidle _ =>
      have hpush := hturn.1.toPush (hp ▸ hidle) fun _ hcheck => h.open hcheck
      rw [add_left_comm, hpush, add_left_comm]

theorem ClientsInv.pops_turn (h : ClientsInv role s) (hturn : Turned s.queue t q) (hc : ClientTurn role s q t s') :
    (q.shared.popped : Multiset α) = ∑ u, ((s'.received u : Multiset α) + (q.pc u).inHand) := by
  apply add_right_cancel (b := (s.queue.shared.popped : Multiset α))
  rw [add_comm (∑ u, _)]
  nth_rewrite 1 [h.pops]
  symm
  apply Monitor.sum_balance (t := t)
  · intro u hu
    have hrec : s'.received u = s.received u := by
      cases hc with
      | item => exact Function.update_of_ne hu _ _
      | _ => rfl
    rw [hrec]
    rcases hturn.2 u hu with he | ⟨hw, he⟩
    · rw [he]
    · rw [hw, he]
      rfl
  · cases hc with
    | item hp hq hx => simp [hp, hq, hx, Pc.inHand, ← Multiset.coe_add]
    | push _ _ hp hq hx => rw [hp, hq, hx]; rfl
    | pop _ _ hp hq hx => rw [hp, hq, hx]; rfl
    | close _ _ hp hq hx => rw [hp, hq, hx]; rfl
    | nothing hp hq hx => rw [hp, hq, hx]; rfl
    | within hp _ hun =>
      have hpop := hturn.1.inHand (fun r hr => hun r (hp.symm.trans hr))
      rw [add_left_comm, ← hpop, add_left_comm]

theorem ClientsInv.drained_turn (h : ClientsInv role s) (hturn : Turned s.queue t q) {u : T}
    (hu : q.pc u = .unlock none) : q.shared.closed = true ∧ q.shared.queue = [] := by
  have hk := (fifo_reachable h.reach).knows t
  have hold : s.queue.shared.closed = true ∧ s.queue.shared.queue = [] := by
    by_cases hut : u = t
    · subst hut
      exact hturn.1.none_of hk (h.fits u) hu
    · rcases hturn.2 u hut with he | ⟨_, he⟩
      · exact h.drained u (he.symm.trans hu)
      · rw [he] at hu
        cases hu
  exact hturn.1.drained hk hold.1 hold.2

theorem ClientsInv.done_turn (h : ClientsInv role s) (hturn : Turned s.queue t q) (hc : ClientTurn role s q t s')
    {u : T} (hr : role u = .consumer) (hd : s'.done u = true) :
    (q.shared.closed = true ∧ q.shared.queue = []) ∧ q.pc u = .idle := by
  have hk := (fifo_reachable h.reach).knows t
  by_cases hut : u = t
  · subst hut
    cases hc with
    | push hr' _ _ _ _ => simp [hr] at hr'
    | close hr' _ _ _ _ => simp [hr] at hr'
    | pop _ hd' _ _ _ => exact absurd (hd.symm.trans hd') Bool.noConfusion
    | item hp _ _ =>
      have hidle := (h.done u hr hd).2
      rw [hp] at hidle
      cases hidle
    | nothing hp hq hx =>
      rw [hx]
      exact ⟨h.drained u hp, hq⟩
    | within hp hidle _ => exact absurd (hp.symm.trans (h.done u hr hd).2) hidle
  · have hd' : s.done u = true := by
      cases hc with
      | close => exact (Function.update_of_ne hut _ _).symm.trans hd
      | nothing => exact (Function.update_of_ne hut _ _).symm.trans hd
      | _ => exact hd
    obtain ⟨⟨hclosed, hqueue⟩, hidle⟩ := h.done u hr hd'
    refine ⟨hturn.1.drained hk hclosed hqueue, ?_⟩
    rcases hturn.2 u hut with he | ⟨hw, _⟩
    · exact he.trans hidle
    · rw [hidle] at hw
      cases hw

theorem ClientsInv.closing_turn (h : ClientsInv role s) (hturn : Turned s.queue t q) (hc : ClientTurn role s q t s')
    {u : T} (hr : role u = .closer) (hd : s'.done u = true) :
    q.shared.closed = true ∨ q.pc u = .closeLock ∨ q.pc u = .closeSet := by
  have hk := (fifo_reachable h.reach).knows t
  by_cases hold : s.done u = true
  · rcases h.closing u hr hold with hclosed | hp
    · exact Or.inl (hturn.1.closed hk hclosed).1
    · by_cases hut : u = t
      · subst hut
        exact (hturn.1.closing hp).imp_right Or.inr
      · rcases hturn.2 u hut with he | ⟨hw, _⟩
        · exact Or.inr (hp.imp he.trans he.trans)
        · rcases hp with hp | hp <;> rw [hp] at hw <;> cases hw
  · cases hc with
    | close hr' _ _ hq _ =>
      by_cases hut : u = t
      · exact Or.inr (Or.inl (hut ▸ hq))
      · exact absurd ((Function.update_of_ne hut _ _).symm.trans hd) hold
    | nothing hp _ _ =>
      by_cases hut : u = t
      · have hfit := h.fits u
        rw [hr, hut, hp] at hfit
        cases hfit
      · exact absurd ((Function.update_of_ne hut _ _).symm.trans hd) hold
    | _ => exact absurd hd hold

theorem ClientsInv.step (h : ClientsInv role s) {a : ClientAct T α} (hs : clientStep role s a = some s') :
    ClientsInv role s' := by
  obtain ⟨act, q, hq, hc⟩ := ClientTurn.of_step hs
  have hturn := turned_step hq
  have hsq := hc.queue
  exact {
    reach := hsq ▸ h.reach.step act hq
    fits := fun u => hsq ▸ hc.fits hturn h.fits u
    joined := fun hclose u => h.joined_turn hturn hc (hsq ▸ hclose) u
    no_throw := fun u => hsq ▸ h.throw_turn hturn u
    todo := fun u hu => h.todo_turn hc hu
    pushes := hsq ▸ h.pushes_turn hturn hc
    pops := hsq ▸ h.pops_turn hturn hc
    drained := fun u hu => hsq ▸ h.drained_turn hturn (hsq ▸ hu)
    done := fun u hr hd => hsq ▸ h.done_turn hturn hc hr hd
    closing := fun u hr hd => hsq ▸ h.closing_turn hturn hc hr hd }

theorem clientsInv_reachable (h : (clients role).Reachable s) : ClientsInv role s := by
  apply h.inv (P := ClientsInv role)
  · exact {
      reach := .init
      fits := fun u => by cases hr : role u <;> rfl
      joined := by
        rintro (hc | ⟨u, hu⟩)
        · cases hc
        · cases hu
      no_throw := nofun
      todo := fun u hu => hu
      pushes := by simp [clients, threadSafeQueue, Pc.toPush]
      pops := by simp [clients, threadSafeQueue, Pc.inHand]
      drained := nofun
      done := nofun
      closing := nofun }
  · exact fun _ _ _ hi hs => hi.step hs

/-! ## What the consumers get -/

/-- Where everybody is once all producers have finished and all consumers have got `nullopt`. -/
theorem ClientsInv.settled (h : ClientsInv role s) (hfin : ∀ u, finished role s u = true)
    (hall : ∀ u, role u = .consumer → s.done u = true) (u : T) :
    s.todo u = [] ∧ (s.queue.pc u).toPush = 0 ∧ (s.queue.pc u).inHand = 0 := by
  have hfit := h.fits u
  cases hr : role u with
  | producer items =>
    obtain ⟨htodo, hidle⟩ := (finished_producer hr).mp (hfin u)
    rw [hidle]
    exact ⟨htodo, rfl, rfl⟩
  | consumer =>
    rw [(h.done u hr (hall u hr)).2]
    exact ⟨h.todo u (by rw [hr]; rfl), rfl, rfl⟩
  | closer =>
    rw [hr] at hfit
    refine ⟨h.todo u (by rw [hr]; rfl), ?_⟩
    cases hp : s.queue.pc u <;> rw [hp] at hfit <;> first | exact ⟨rfl, rfl⟩ | cases hfit

theorem ClientsInv.received_eq (h : ClientsInv role s) {t : T} (ht : role t = .consumer)
    (hall : ∀ u, role u = .consumer → s.done u = true) :
    ∑ u, (s.received u : Multiset α) = s.queue.shared.pushed ∧
      (s.queue.shared.pushed : Multiset α) = ∑ u, ((role u).items : Multiset α) := by
  obtain ⟨hclosed, hqueue⟩ := (h.done t ht (hall t ht)).1
  have hset := h.settled (h.joined (Or.inl hclosed)) hall
  have hpops := h.pops
  have hpushes := h.pushes
  simp only [fun u => (hset u).2.2, add_zero] at hpops
  simp only [fun u => (hset u).1, fun u => (hset u).2.1, Multiset.coe_nil, add_zero,
    Finset.sum_const_zero] at hpushes
  have hfifo := (fifo_reachable h.reach).fifo
  rw [hqueue, List.append_nil] at hfifo
  exact ⟨hpops.symm.trans (congrArg _ hfifo.symm), hpushes⟩

/-! ## Nobody is left waiting -/

theorem Inv.active {q : State T α} (h : Inv q) {t : T} (hidle : q.pc t ≠ .idle) (hw : q.pc t ≠ .waiting) :
    ∃ act q', act.isProgress = true ∧ step q act = some q' := by
  cases hp : q.pc t with
  | idle => exact absurd hp hidle
  | waiting => exact absurd hp hw
  | pushNotify =>
    by_cases hwait : ∃ w, (q.pc w).isWaiting = true
    · obtain ⟨w, hwait⟩ := hwait
      exact ⟨.notifyOne t (some w), _, rfl, by simp only [step, hp, Monitor.notifyOne, hwait]; rfl⟩
    · have hnone : ∀ w, (q.pc w).isWaiting = false := fun w => by simpa using fun hw => hwait ⟨w, hw⟩
      exact ⟨.notifyOne t none, _, rfl, by simp only [step, hp, Monitor.notifyOne, if_pos hnone]; rfl⟩
  | closeNotify => exact ⟨.notifyAll t, _, rfl, by simp only [step, hp]; rfl⟩
  | _ =>
    apply step_of_program h (t := t)
    rw [hp]
    first | exact Or.inl rfl | exact Or.inr rfl

def ClientAct.isProgress : ClientAct T α → Bool
  | .call _ => true
  | .queue act => act.isProgress

theorem clientStep_queue {act : Act T α} {q : State T α} (ha : act.isProgress = true)
    (h : step s.queue act = some q) : ∃ a s', a.isProgress = true ∧ clientStep role s a = some s' := by
  refine ⟨.queue act, returned s q act, ha, ?_⟩
  cases act with
  | call t op => cases ha
  | _ => exact congrArg (Option.map _) h

theorem step_call {q : State T α} {t : T} (h : q.pc t = .idle) (op : Op α) :
    step q (.call t op) = some (q.goto t (enter op)) := by
  simp only [step, h]

/-- While a consumer has not got its `nullopt`, the protocol goes on. -/
theorem ClientsInv.live (h : ClientsInv role s) {closer t : T} (hcl : role closer = .closer)
    (ht : role t = .consumer) (hd : s.done t = false) :
    ∃ a s', a.isProgress = true ∧ clientStep role s a = some s' := by
  have hinv := inv_reachable h.reach
  by_cases hact : ∃ u, s.queue.pc u ≠ .idle ∧ s.queue.pc u ≠ .waiting
  · obtain ⟨u, hidle, hw⟩ := hact
    obtain ⟨act, q, ha, hq⟩ := hinv.active hidle hw
    exact clientStep_queue ha hq
  have hrest : ∀ u, role u ≠ .consumer → s.queue.pc u = .idle := by
    intro u hu
    by_contra hidle
    have hw : s.queue.pc u = .waiting := by
      by_contra hw
      exact hact ⟨u, hidle, hw⟩
    have hfit := h.fits u
    rw [hw] at hfit
    cases hr : role u <;> rw [hr] at hfit hu <;> first | exact hu rfl | cases hfit
  by_cases hidle : s.queue.pc t = .idle
  · exact ⟨.call t, _, rfl, by simp only [clientStep, callStep, ht, hd, step_call hidle]; rfl⟩
  have hw : s.queue.pc t = .waiting := by
    by_contra hw
    exact hact ⟨t, hidle, hw⟩
  by_cases hwork : s.queue.shared.queue ≠ [] ∨ s.queue.shared.closed = true
  · obtain ⟨act, q, ha, hq⟩ := hinv.progress ⟨t, hw⟩ hwork
    exact clientStep_queue ha hq
  have hopen : s.queue.shared.closed ≠ true := fun hc => hwork (Or.inr hc)
  have hclidle : s.queue.pc closer = .idle := hrest closer (by rw [hcl]; exact nofun)
  have hcld : s.done closer = false := by
    by_contra hdone
    rcases h.closing closer hcl (by simpa using hdone) with hc | hp | hp
    · exact hopen hc
    · exact absurd (hclidle.symm.trans hp) nofun
    · exact absurd (hclidle.symm.trans hp) nofun
  by_cases hfin : ∀ u, finished role s u = true
  · exact ⟨.call closer, _, rfl, by
      simp only [clientStep, callStep, hcl, if_pos (And.intro hcld hfin), step_call hclidle]; rfl⟩
  · obtain ⟨u, hu⟩ := not_forall.mp hfin
    cases hr : role u with
    | consumer => exact absurd (by simp [finished, hr]) hu
    | closer => exact absurd (by simp [finished, hr]) hu
    | producer items =>
      have huidle := hrest u (by rw [hr]; exact nofun)
      cases htodo : s.todo u with
      | nil => exact absurd ((finished_producer hr).mpr ⟨htodo, huidle⟩) hu
      | cons item rest =>
        exact ⟨.call u, _, rfl, by simp only [clientStep, callStep, hr, htodo, step_call huidle]; rfl⟩

variable (role) in
structure Shutdown (s : Clients T α) : Prop where
  queue : (threadSafeQueue T α).Reachable s.queue
  no_throw : ∀ t, s.queue.pc t ≠ .pushThrow
  got_nullopt : ∀ t, role t = .consumer → s.done t = true →
    s.queue.shared.closed = true ∧ s.queue.shared.queue = []
  received : (∃ t, role t = .consumer) → (∀ t, role t = .consumer → s.done t = true) →
    ∑ t, (s.received t : Multiset α) = s.queue.shared.pushed ∧
      (s.queue.shared.pushed : Multiset α) = ∑ t, ((role t).items : Multiset α)
  live : (∃ t, role t = .closer) → (∃ t, role t = .consumer ∧ s.done t = false) →
    ∃ a s', a.isProgress = true ∧ clientStep role s a = some s'

/-- **The queue, and the shutdown protocol on it**, for any threads and any interleaving. -/
theorem fifo_and_shutdown (T α : Type) [Fintype T] [DecidableEq T] :
    (∀ s, (threadSafeQueue T α).Reachable s → FifoQueue s) ∧
      ∀ (role : T → Role α) (s : Clients T α), (clients role).Reachable s → Shutdown role s := by
  refine ⟨fun s h => fifoQueue_reachable h, fun role s h => ?_⟩
  have hinv := clientsInv_reachable h
  exact {
    queue := hinv.reach
    no_throw := hinv.no_throw
    got_nullopt := fun t ht hd => (hinv.done t ht hd).1
    received := fun ⟨_, ht⟩ hall => hinv.received_eq ht hall
    live := fun ⟨_, hcl⟩ ⟨_, ht, hd⟩ => hinv.live hcl ht hd }

end

def demoRole : Fin 3 → Role Nat
  | 0 => .producer [1, 2]
  | 1 => .consumer
  | 2 => .closer

/-- The second item is taken, and `nullopt` returned, after `close`. -/
def demo {T : Type} (a b c : T) : List (ClientAct T Nat) :=
  let push : List (ClientAct T Nat) := .call a :: [.acquire a, .inside a, .inside a, .release a,
    .notifyOne a none].map .queue
  let pop : List (ClientAct T Nat) := .call b :: [.acquire b, .inside b, .inside b, .release b].map .queue
  let close : List (ClientAct T Nat) := .call c :: [.acquire c, .inside c, .release c, .notifyAll c].map .queue
  push ++ pop ++ push ++ close ++ pop ++ pop

theorem fifo_and_shutdown_demo : ∃ s, (clients demoRole).Reachable s ∧ s.done 1 = true ∧ s.received 1 = [1, 2] ∧
    FifoQueue s.queue ∧ Shutdown demoRole s := by
  have hrun : ∃ s, (clients demoRole).run (clients demoRole).init (demo 0 1 2) = some s ∧ s.done 1 = true ∧
      s.received 1 = [1, 2] := ⟨_, rfl, rfl, rfl⟩
  obtain ⟨s, hrun, hd, hrec⟩ := hrun
  have hr := System.reachable_of_run (demo 0 1 2) .init hrun
  obtain ⟨hfifo, hshut⟩ := fifo_and_shutdown (α := Nat) (Fin 3)
  have hs := hshut demoRole s hr
  exact ⟨s, hr, hd, hrec, hfifo s.queue hs.queue, hs⟩

end Playground.ThreadSafeQueue
