import Mathlib.Algebra.BigOperators.Fin
import Playground.Lib.Monitor
import Playground.Lib.WeakMemory
import Playground.Lib.Transition

/-!
# The relaxed counter (`count_events` of `concurrency/memory_model.cpp`)

Threads add to a counter with relaxed updates. The main thread joins them one
after another and then loads the counter. `increment_counter` of
`concurrency/atomics.cpp` is the same program.
-/

namespace Playground.MemoryModel

open WeakMemory

/-- The main thread is `none`. -/
abbrev Thread (N : Nat) := Option (Fin N)

structure Counting (N : Nat) where
  memory : Memory (Thread N) Unit fun _ => BitVec 32
  remaining : Fin N → Nat
  joined : Nat
  loaded : Option (BitVec 32)

/-- The timestamp is that of the message read. -/
inductive Count (N : Nat)
  | fetchAdd (t : Fin N) (k : Nat)
  | join
  | load (k : Nat)

section
variable {N : Nat}

/-- One iteration of `count_events`. -/
def Counting.fetchAdd (s : Counting N) (t : Fin N) (k : Nat) : Option (Counting N) :=
  match s.remaining t with
  | 0 => none
  | r + 1 => (s.memory.update (some t) () .relaxed k (· + 1)).map fun p =>
    { s with memory := p.2, remaining := Function.update s.remaining t r }

def Counting.join (s : Counting N) : Option (Counting N) :=
  if h : s.joined < N then
    if s.remaining ⟨s.joined, h⟩ = 0 then
      some { s with memory := s.memory.join none (some ⟨s.joined, h⟩), joined := s.joined + 1 }
    else none
  else none

def Counting.load (s : Counting N) (k : Nat) : Option (Counting N) :=
  if s.joined = N then
    (s.memory.load none () .seqCst k).map fun p => { s with memory := p.2, loaded := some p.1 }
  else none

def Counting.step (s : Counting N) : Count N → Option (Counting N)
  | .fetchAdd t k => s.fetchAdd t k
  | .join => s.join
  | .load k => s.load k

/-- Thread `t` counts `events t` events. -/
def counting (events : Fin N → Nat) : System (Counting N) (Count N) where
  init := ⟨.start fun _ => 0, events, 0, none⟩
  step := Counting.step

/-! ## One step -/

inductive Counting.Turn (s : Counting N) : Counting N → Prop
  | fetchAdd {t k r v memory} (hr : s.remaining t = r + 1)
      (hm : s.memory.update (some t) () .relaxed k (· + 1) = some (v, memory)) :
      Turn s { s with memory, remaining := Function.update s.remaining t r }
  | join (h : s.joined < N) (hr : s.remaining ⟨s.joined, h⟩ = 0) :
      Turn s { s with memory := s.memory.join none (some ⟨s.joined, h⟩), joined := s.joined + 1 }
  | load {k v memory} (hj : s.joined = N) (hm : s.memory.load none () .seqCst k = some (v, memory)) :
      Turn s { s with memory, loaded := some v }

theorem Counting.turn_step {s s' : Counting N} {i : Count N} (h : s.step i = some s') : s.Turn s' := by
  cases i with
  | fetchAdd t k =>
    simp only [Counting.step, Counting.fetchAdd] at h
    split at h
    · cases h
    · rename_i r hr
      obtain ⟨⟨v, memory⟩, hm, rfl⟩ := Option.map_eq_some_iff.mp h
      exact .fetchAdd hr hm
  | join =>
    simp only [Counting.step, Counting.join] at h
    split at h
    · rename_i hj
      obtain ⟨hr, h⟩ := Option.ite_none_right_eq_some.mp h
      cases h
      exact .join hj hr
    · cases h
  | load k =>
    obtain ⟨hj, h⟩ := Option.ite_none_right_eq_some.mp h
    obtain ⟨⟨v, memory⟩, hm, rfl⟩ := Option.map_eq_some_iff.mp h
    exact .load hj hm

/-! ## Every order of the updates -/

/-- The values the counter has had after `n` updates. -/
def counts (n : Nat) : List (BitVec 32) := (List.range (n + 1)).map (BitVec.ofNat 32)

theorem counts_succ (n : Nat) : counts (n + 1) = counts n ++ [BitVec.ofNat 32 n + 1] := by
  rw [counts, List.range_succ, List.map_append, ← counts, List.map_singleton, BitVec.ofNat_add]
  rfl

theorem getElem?_counts {n k : Nat} {v : BitVec 32} (h : (counts n)[k]? = some v) : v = BitVec.ofNat 32 k := by
  rw [counts, List.getElem?_map] at h
  obtain ⟨i, hi, rfl⟩ := Option.map_eq_some_iff.mp h
  obtain ⟨hlt, rfl⟩ := List.getElem?_eq_some_iff.mp hi
  rw [List.getElem_range]

/-- The counter counts the updates; the main thread knows what a thread it has joined knew. -/
structure Counting.Inv (events : Fin N → Nat) (s : Counting N) : Prop where
  counted : ∃ c, s.memory.Chain () (counts c) ∧ c + ∑ t, s.remaining t = ∑ t, events t
  joined : ∀ t : Fin N, t < s.joined → s.remaining t = 0 ∧
    s.memory.view (some t) (.store ()) ≤ s.memory.view none (.store ())
  loaded : ∀ v, s.loaded = some v → v = BitVec.ofNat 32 (∑ t, events t)

theorem counting_init (events : Fin N → Nat) : (counting events).init.Inv events where
  counted := ⟨0, Memory.Chain.start _, Nat.zero_add _⟩
  joined t ht := absurd ht (Nat.not_lt_zero _)
  loaded v hv := by cases hv

variable {events : Fin N → Nat} {s s' : Counting N}

theorem Counting.Inv.fetchAdd {t : Fin N} {k r : Nat} {v : BitVec 32}
    {memory : Memory (Thread N) Unit fun _ => BitVec 32} (h : s.Inv events) (hr : s.remaining t = r + 1)
    (hm : s.memory.update (some t) () .relaxed k (· + 1) = some (v, memory)) :
    Counting.Inv events { s with memory, remaining := Function.update s.remaining t r } where
  counted := by
    obtain ⟨c, hc, hsum⟩ := h.counted
    obtain ⟨hk, hv, hc'⟩ := hc.update hm
    obtain rfl : k = c := by simpa [counts] using hk
    rw [getElem?_counts hv, ← counts_succ] at hc'
    refine ⟨k + 1, hc', ?_⟩
    rw [← hsum]
    refine Monitor.sum_balance (t := t) (fun u hu => Function.update_of_ne hu ..) ?_
    simp only [hr, Function.update_self]
    omega
  joined := by
    intro u hu
    obtain ⟨hz, hle⟩ := h.joined u hu
    have hut : u ≠ t := by
      rintro rfl
      omega
    obtain ⟨msg, _, _, _, _, rfl⟩ := Memory.update_eq_some hm
    simp only [Function.update_of_ne hut, Memory.order_view]
    rw [Memory.learn_view_of_ne (by simpa using hut), Memory.learn_view_of_ne (by simp)]
    exact ⟨hz, hle⟩
  loaded := h.loaded

theorem Counting.Inv.join (h : s.Inv events) (hj : s.joined < N) (hr : s.remaining ⟨s.joined, hj⟩ = 0) :
    Counting.Inv events { s with memory := s.memory.join none (some ⟨s.joined, hj⟩), joined := s.joined + 1 } where
  counted := by
    obtain ⟨c, hc, hsum⟩ := h.counted
    exact ⟨c, hc.mono rfl Memory.join_le, hsum⟩
  joined := by
    intro u hu
    have hview : (s.memory.join none (some ⟨s.joined, hj⟩)).view (some u) = s.memory.view (some u) :=
      Memory.learn_view_of_ne (by simp)
    rcases Nat.lt_succ_iff_lt_or_eq.mp hu with hlt | heq
    · obtain ⟨hz, hle⟩ := h.joined u hlt
      exact ⟨hz, by rw [hview]; exact le_trans hle (Memory.join_le none _)⟩
    · obtain rfl : u = ⟨s.joined, hj⟩ := Fin.ext heq
      refine ⟨hr, ?_⟩
      rw [hview]
      simp only [Memory.join, Memory.learn_view_self]
      exact le_sup_right (a := s.memory.view none) _
  loaded := h.loaded

theorem Counting.Inv.load {k : Nat} {v : BitVec 32} {memory : Memory (Thread N) Unit fun _ => BitVec 32}
    (h : s.Inv events) (hj : s.joined = N) (hm : s.memory.load none () .seqCst k = some (v, memory)) :
    Counting.Inv events { s with memory, loaded := some v } := by
  obtain ⟨c, hc, hsum⟩ := h.counted
  have hall : ∀ u, s.memory.view u (.store ()) ≤ s.memory.view none (.store ()) := by
    intro u
    cases u with
    | none => exact le_refl _
    | some t => exact (h.joined t (by rw [hj]; exact t.isLt)).2
  have hk := hc.load_last hm hall
  obtain ⟨hv, hc'⟩ := hc.load hm
  have hzero : ∑ t, s.remaining t = 0 :=
    Finset.sum_eq_zero fun t _ => (h.joined t (by rw [hj]; exact t.isLt)).1
  obtain rfl : k = c := by simpa [counts] using hk
  refine ⟨⟨k, hc', hsum⟩, fun t ht => ?_, fun v' hv' => ?_⟩
  · obtain ⟨hz, hle⟩ := h.joined t ht
    have hview := Memory.load_le hm none (.store ())
    obtain ⟨msg, _, _, _, rfl⟩ := Memory.load_eq_some hm
    simp only [Memory.order_view] at hview ⊢
    rw [Memory.learn_view_of_ne (u := some t) (by simp)]
    exact ⟨hz, le_trans hle hview⟩
  · cases hv'
    rw [getElem?_counts hv, ← hsum, hzero, Nat.add_zero]

theorem Counting.Inv.turn (h : s.Inv events) (ht : s.Turn s') : s'.Inv events := by
  cases ht with
  | fetchAdd hr hm => exact h.fetchAdd hr hm
  | join hj hr => exact h.join hj hr
  | load hj hm => exact h.load hj hm

/-- The main thread reads the number of all events, whatever the order of the updates. -/
theorem countEvents_reachable (events : Fin N → Nat) (s : Counting N) (hs : (counting events).Reachable s)
    (v : BitVec 32) (hv : s.loaded = some v) : v = BitVec.ofNat 32 (∑ t, events t) := by
  have h : s.Inv events := hs.inv (counting_init events) fun s i s' h hs => h.turn (Counting.turn_step hs)
  exact h.loaded v hv

def eventsOrder (a b : Fin N) : List (Count N) := [.fetchAdd b 0, .fetchAdd a 1, .join, .join, .load 2]

/-- One event each. -/
theorem countEvents_reachable_two : ∃ s v,
    (counting fun _ : Fin 2 => 1).run (counting fun _ => 1).init (eventsOrder 0 1) = some s ∧ s.loaded = some v ∧
      v = BitVec.ofNat 32 (∑ _t : Fin 2, 1) := by
  obtain ⟨s, v, hs, hv⟩ : ∃ s v,
      (counting fun _ : Fin 2 => 1).run (counting fun _ => 1).init (eventsOrder 0 1) = some s ∧ s.loaded = some v :=
    ⟨_, _, rfl, rfl⟩
  exact ⟨s, v, hs, hv, countEvents_reachable (fun _ => 1) s (System.reachable_of_run _ .init hs) v hv⟩

end

end Playground.MemoryModel
