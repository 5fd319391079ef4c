import Playground.Lib.Transition
import Playground.Lib.WeakMemory

/-!
# Message passing (`producer` and `consumer` of `concurrency/memory_model.cpp`)

The producer assigns the fields of the payload and then stores to `ready`; the
consumer spins on `ready` and then reads the fields. `ready` is atomic, the
payload is not. The memory orders of the store and of the load are parameters;
the program has `release` and `acquire`.
-/

namespace Playground.MessagePassing

open WeakMemory

inductive Thread
  | producer
  | consumer
  deriving DecidableEq

inductive Field
  | x
  | y
  | z
  deriving DecidableEq

inductive Producer
  | assign (rest : List Field)
  | returned

inductive Consumer
  | spin
  | use (rest : List Field)

/-- `seen` are the fields that the consumer has read. -/
structure State where
  memory : Memory Thread Unit fun _ => Bool
  payload : Field → Cell Thread Int
  producer : Producer
  consumer : Consumer
  seen : List (Field × Int)

/-- The timestamps are those of the message stored and of the message read. -/
inductive Act
  | assign
  | store (k : Nat)
  | load (k : Nat)
  | read

/-- `{1, 2, 3}` -/
def sent : Field → Int
  | .x => 1
  | .y => 2
  | .z => 3

/-- The fields that the consumer reads: once for the assertion, and once to print them. -/
def uses : List Field := [.x, .y, .z, .x, .y, .z]

def State.assign (s : State) : Option State :=
  match s.producer with
  | .assign (f :: rest) =>
    some { s with
      memory := s.memory.tick .producer
      payload := Function.update s.payload f ((s.payload f).writeBy s.memory .producer (sent f))
      producer := .assign rest }
  | _ => none

def State.store (order : Order) (s : State) (k : Nat) : Option State :=
  match s.producer with
  | .assign [] => (s.memory.store .producer () order k true).map fun memory =>
    { s with memory, producer := .returned }
  | _ => none

def State.load (order : Order) (s : State) (k : Nat) : Option State :=
  match s.consumer with
  | .spin => (s.memory.load .consumer () order k).map fun p =>
    { s with memory := p.2, consumer := if p.1 then .use uses else .spin }
  | _ => none

def State.read (s : State) : Option State :=
  match s.consumer with
  | .use (f :: rest) =>
    some { s with
      memory := s.memory.tick .consumer
      payload := Function.update s.payload f ((s.payload f).readBy s.memory .consumer)
      consumer := .use rest
      seen := s.seen ++ [(f, (s.payload f).value)] }
  | _ => none

def step (stored loaded : Order) (s : State) : Act → Option State
  | .assign => s.assign
  | .store k => s.store stored k
  | .load k => s.load loaded k
  | .read => s.read

def threads (stored loaded : Order) : System State Act where
  init := ⟨.start fun _ => false, fun _ => .fresh 0, .assign [.x, .y, .z], .spin, []⟩
  step := step stored loaded

/-- The next access of a thread to the payload races with an earlier one. -/
def State.Racy (s : State) : Prop :=
  (∃ f rest, s.producer = .assign (f :: rest) ∧ ¬ (s.payload f).WritableBy (s.memory.view .producer)) ∨
    ∃ f rest, s.consumer = .use (f :: rest) ∧ ¬ (s.payload f).ReadableBy (s.memory.view .consumer)

/-! ## One step -/

inductive Turn (stored loaded : Order) (s : State) : State → Prop
  | assign {f rest} (hp : s.producer = .assign (f :: rest)) : Turn stored loaded s { s with
      memory := s.memory.tick .producer
      payload := Function.update s.payload f ((s.payload f).writeBy s.memory .producer (sent f))
      producer := .assign rest }
  | store {k memory} (hp : s.producer = .assign []) (hm : s.memory.store .producer () stored k true = some memory) :
      Turn stored loaded s { s with memory, producer := .returned }
  | load {k v memory} (hc : s.consumer = .spin) (hm : s.memory.load .consumer () loaded k = some (v, memory)) :
      Turn stored loaded s { s with memory, consumer := if v then .use uses else .spin }
  | read {f rest} (hc : s.consumer = .use (f :: rest)) : Turn stored loaded s { s with
      memory := s.memory.tick .consumer
      payload := Function.update s.payload f ((s.payload f).readBy s.memory .consumer)
      consumer := .use rest
      seen := s.seen ++ [(f, (s.payload f).value)] }

section
variable {stored loaded : Order} {s s' : State}

theorem turn_step {i : Act} (h : step stored loaded s i = some s') : Turn stored loaded s s' := by
  cases i with
  | assign =>
    simp only [step, State.assign] at h
    split at h
    · rename_i hp
      cases h
      exact .assign hp
    · cases h
  | store k =>
    simp only [step, State.store] at h
    split at h
    · rename_i hp
      obtain ⟨memory, hm, rfl⟩ := Option.map_eq_some_iff.mp h
      exact .store hp hm
    · cases h
  | load k =>
    simp only [step, State.load] at h
    split at h
    · rename_i hc
      obtain ⟨⟨v, memory⟩, hm, rfl⟩ := Option.map_eq_some_iff.mp h
      exact .load hc hm
    · cases h
  | read =>
    simp only [step, State.read] at h
    split at h
    · rename_i hc
      cases h
      exact .read hc
    · cases h

/-! ## Release and acquire -/

/-- What the producer has done is passed on by the message `true`. -/
structure Inv (s : State) : Prop where
  early : ∀ rest, s.producer = .assign rest →
    s.consumer = .spin ∧ (∀ f, (s.payload f).WritableBy (s.memory.view .producer)) ∧
      ∀ k msg, s.memory.msgs () k = some msg → msg.value = false
  assigned : ∀ f, (∀ rest, s.producer = .assign rest → f ∉ rest) → (s.payload f).value = sent f
  published : ∀ k msg, s.memory.msgs () k = some msg → msg.value = true → ∀ f, (s.payload f).ReadableBy msg.view
  knows : ∀ rest, s.consumer = .use rest → ∀ f, (s.payload f).ReadableBy (s.memory.view .consumer)
  seen : ∀ p ∈ s.seen, p.2 = sent p.1

theorem inv_init (stored loaded : Order) : Inv (threads stored loaded).init where
  early := by
    rintro rest ⟨⟩
    refine ⟨rfl, fun f => Cell.fresh_writable, fun k msg hm => ?_⟩
    obtain ⟨_, hm⟩ := Option.ite_none_right_eq_some.mp hm
    cases hm
    rfl
  assigned := by
    intro f hf
    have := hf _ rfl
    cases f <;> simp at this
  published := by
    intro k msg hm hv
    obtain ⟨_, hm⟩ := Option.ite_none_right_eq_some.mp hm
    cases hm
    cases hv
  knows := by rintro rest ⟨⟩
  seen := by
    intro p hp
    cases hp

theorem Inv.assign {f : Field} {rest : List Field} (h : Inv s) (hp : s.producer = .assign (f :: rest)) :
    Inv { s with
      memory := s.memory.tick .producer
      payload := Function.update s.payload f ((s.payload f).writeBy s.memory .producer (sent f))
      producer := .assign rest } where
  early := by
    rintro rest' ⟨⟩
    obtain ⟨hc, hw, hv⟩ := h.early _ hp
    refine ⟨hc, fun g => ?_, hv⟩
    by_cases hg : g = f
    · subst hg
      simpa using (hw g).writeBy
    · simpa only [Function.update_of_ne hg] using (hw g).mono (Memory.tick_le _)
  assigned := by
    intro g hg
    by_cases hgf : g = f
    · subst hgf
      simp [Cell.writeBy]
    · simp only [Function.update_of_ne hgf]
      refine h.assigned g fun rest' hr => ?_
      obtain rfl : f :: rest = rest' := Producer.assign.inj (hp.symm.trans hr)
      exact List.not_mem_cons_of_ne_of_not_mem hgf (hg rest rfl)
  published := by
    intro k msg hm hv
    rw [(h.early _ hp).2.2 k msg hm] at hv
    cases hv
  knows := by
    intro rest' hc
    rw [(h.early _ hp).1] at hc
    cases hc
  seen := h.seen

theorem Inv.store {k : Nat} {memory : Memory Thread Unit fun _ => Bool} (ho : stored.releases = true) (h : Inv s)
    (hp : s.producer = .assign []) (hm : s.memory.store .producer () stored k true = some memory) :
    Inv { s with memory, producer := .returned } where
  early := by rintro rest ⟨⟩
  assigned := by
    intro f _
    refine h.assigned f fun rest hr => ?_
    obtain rfl : [] = rest := Producer.assign.inj (hp.symm.trans hr)
    exact List.not_mem_nil
  published := by
    obtain ⟨_, _, rfl⟩ := Memory.store_eq_some hm
    intro n msg hn hv f
    by_cases hnk : n = k
    · subst hnk
      simp only [Memory.order_msgs, Memory.learn_msgs, Memory.put_msgs_self, Option.some.injEq] at hn
      subst hn
      simpa only [release_of ho] using ((h.early _ hp).2.1 f).readable.mono le_know
    · rw [Memory.order_msgs, Memory.learn_msgs, Memory.put_msgs_of_ne hnk] at hn
      exact h.published n msg hn hv f
  knows := by
    intro rest hc
    rw [(h.early _ hp).1] at hc
    cases hc
  seen := h.seen

theorem Inv.load {k : Nat} {v : Bool} {memory : Memory Thread Unit fun _ => Bool} (ho : loaded.acquires = true)
    (h : Inv s) (hm : s.memory.load .consumer () loaded k = some (v, memory)) :
    Inv { s with memory, consumer := if v then .use uses else .spin } := by
  obtain ⟨msg, hmsg, _, rfl, rfl⟩ := Memory.load_eq_some hm
  refine ⟨fun rest hp => ?_, h.assigned, by simpa using h.published, fun rest hc f => ?_, h.seen⟩
  · obtain ⟨hc, hw, hv⟩ := h.early rest hp
    refine ⟨by simp [hv k msg hmsg], fun f => ?_, by simpa using hv⟩
    rw [Memory.order_view, Memory.learn_view_of_ne (by decide)]
    exact hw f
  · cases hv : msg.value with
    | false => simp [hv] at hc
    | true =>
      rw [Memory.order_view, Memory.learn_view_self]
      exact (h.published k msg hmsg hv f).mono (msg_le_acquire ho)

theorem Inv.read {f : Field} {rest : List Field} (h : Inv s) (hc : s.consumer = .use (f :: rest)) :
    Inv { s with
      memory := s.memory.tick .consumer
      payload := Function.update s.payload f ((s.payload f).readBy s.memory .consumer)
      consumer := .use rest
      seen := s.seen ++ [(f, (s.payload f).value)] } := by
  have hlate : ∀ rest, s.producer ≠ .assign rest := by
    intro rest' hp
    rw [(h.early rest' hp).1] at hc
    cases hc
  -- A read leaves what is written.
  have hcell : ∀ g, (Function.update s.payload f ((s.payload f).readBy s.memory .consumer) g).value =
    (s.payload g).value ∧
      ∀ v : View Thread Unit, (s.payload g).ReadableBy v →
        (Function.update s.payload f ((s.payload f).readBy s.memory .consumer) g).ReadableBy v := by
    intro g
    by_cases hg : g = f
    · subst hg
      rw [Function.update_self]
      exact ⟨rfl, fun v hv => hv⟩
    · rw [Function.update_of_ne hg]
      exact ⟨rfl, fun v hv => hv⟩
  refine ⟨fun rest' hp => absurd hp (hlate rest'), fun g _ => ?_, fun k msg hk hv g => ?_, fun rest' _ g => ?_,
    fun p hp => ?_⟩
  · rw [(hcell g).1]
    exact h.assigned g fun rest' hp => absurd hp (hlate rest')
  · exact (hcell g).2 _ (h.published k msg hk hv g)
  · exact (hcell g).2 _ ((h.knows _ hc g).mono (Memory.tick_le _))
  · rcases List.mem_append.mp hp with hp | hp
    · exact h.seen p hp
    · rw [List.mem_singleton.mp hp]
      exact h.assigned f fun rest' hp => absurd hp (hlate rest')

theorem Inv.turn (hs : stored.releases = true) (hl : loaded.acquires = true) (h : Inv s)
    (ht : Turn stored loaded s s') : Inv s' := by
  cases ht with
  | assign hp => exact h.assign hp
  | store hp hm => exact h.store hs hp hm
  | load _ hm => exact h.load hl hm
  | read hc => exact h.read hc

theorem Inv.not_racy (h : Inv s) : ¬ s.Racy := by
  rintro (⟨f, rest, hp, hn⟩ | ⟨f, rest, hc, hn⟩)
  · exact hn ((h.early _ hp).2.1 f)
  · exact hn (h.knows _ hc f)

/-! ## Weaker orders -/

def earlyRead : List Act := [.assign, .assign, .assign, .store 1, .load 1]

theorem racy_of_weak (h : ¬ (stored.releases = true ∧ loaded.acquires = true)) :
    ∃ s, (threads stored loaded).run (threads stored loaded).init earlyRead = some s ∧ s.Racy := by
  have hclock : ∃ s, (threads stored loaded).run (threads stored loaded).init earlyRead = some s ∧
      s.consumer = .use uses ∧ s.memory.view .consumer (.access .producer) = 0 ∧
        (s.payload .x).written .producer = 1 := by
    cases stored <;> cases loaded <;> first | exact absurd ⟨rfl, rfl⟩ h | exact ⟨_, rfl, rfl, rfl, rfl⟩
  obtain ⟨s, hs, hc, hv, hw⟩ := hclock
  refine ⟨s, hs, .inr ⟨.x, _, hc, fun hr => ?_⟩⟩
  have := hr .producer
  omega

/-- No run races if and only if the store releases and the load acquires; then the consumer sees what was sent. -/
theorem messagePassing_reachable_iff (stored loaded : Order) :
    ((∀ s, (threads stored loaded).Reachable s → ¬ s.Racy) ↔ stored.releases = true ∧ loaded.acquires = true) ∧
      (stored.releases = true ∧ loaded.acquires = true →
        ∀ s, (threads stored loaded).Reachable s → ∀ p ∈ s.seen, p.2 = sent p.1) := by
  have hinv : stored.releases = true ∧ loaded.acquires = true →
      ∀ s, (threads stored loaded).Reachable s → Inv s := fun ⟨hs, hl⟩ s hr =>
    hr.inv (inv_init stored loaded) fun s i s' h hst => h.turn hs hl (turn_step hst)
  refine ⟨⟨fun hsafe => ?_, fun ho s hr => (hinv ho s hr).not_racy⟩, fun ho s hr => (hinv ho s hr).seen⟩
  by_contra hweak
  obtain ⟨s, hs, hracy⟩ := racy_of_weak hweak
  exact hsafe s (System.reachable_of_run earlyRead .init hs) hracy

end

end Playground.MessagePassing
