import Playground.Lib.WeakMemory
import Playground.SpinLock

/-!
# The spinlock under its memory orders (`SpinLock` of `concurrency/atomics.cpp`)

The same threads, with the flag in weak memory: `test_and_set` acquires and
`clear` releases. The counter is plain data, so its accesses must not race. A
`test_and_set` may read that the flag is set when it is not any more; it then
spins once more.
-/

namespace Playground.SpinLockOrders

open WeakMemory SpinLock

/-- `flag_` is the only atomic location. -/
structure State (θ : Type) where
  memory : Memory θ Unit fun _ => Bool
  sharedVal : Cell θ ℤ
  remaining : θ → Nat
  pc : θ → Pc := fun _ => .lock

section
variable {θ : Type} [DecidableEq θ]

def State.goto (s : State θ) (t : θ) (pc : Pc) (memory : Memory θ Unit fun _ => Bool) : State θ :=
  { s with memory, pc := Function.update s.pc t pc }

/-- The next step of `t`, at the timestamp of the message that `test_and_set` reads or `clear` stores. -/
def step (s : State θ) (t : θ) (k : Nat) : Option (State θ) :=
  match s.pc t with
  | .lock =>
    if s.remaining t = 0 then none
    else (s.memory.update t () .acquire k fun _ => true).map fun p => s.goto t (if p.1 then .lock else .read) p.2
  | .read =>
    some { s.goto t (.write s.sharedVal.value) (s.memory.tick t) with sharedVal := s.sharedVal.readBy s.memory t }
  | .write value =>
    some { s.goto t .unlock (s.memory.tick t) with sharedVal := s.sharedVal.writeBy s.memory t (value + 1) }
  | .unlock =>
    (s.memory.store t () .release k false).map fun memory =>
      { s.goto t .lock memory with remaining := Function.update s.remaining t (s.remaining t - 1) }

def threads (sharedVal : ℤ) (times : θ → Nat) : System (State θ) (θ × Nat) where
  init := { memory := .start fun _ => false, sharedVal := .fresh sharedVal, remaining := times }
  step s i := step s i.1 i.2

/-- The next access of `t` to the counter races with an earlier one. -/
def State.Racy (s : State θ) (t : θ) : Prop :=
  match s.pc t with
  | .read => ¬ s.sharedVal.ReadableBy (s.memory.view t)
  | .write _ => ¬ s.sharedVal.WritableBy (s.memory.view t)
  | .lock | .unlock => False

/-! ## One step -/

@[simp] theorem goto_memory (s : State θ) (t : θ) (pc : Pc) (memory : Memory θ Unit fun _ => Bool) :
    (s.goto t pc memory).memory = memory := rfl

@[simp] theorem goto_sharedVal (s : State θ) (t : θ) (pc : Pc) (memory : Memory θ Unit fun _ => Bool) :
    (s.goto t pc memory).sharedVal = s.sharedVal := rfl

@[simp] theorem goto_remaining (s : State θ) (t : θ) (pc : Pc) (memory : Memory θ Unit fun _ => Bool) :
    (s.goto t pc memory).remaining = s.remaining := rfl

@[simp] theorem goto_pc (s : State θ) (t : θ) (pc : Pc) (memory : Memory θ Unit fun _ => Bool) :
    (s.goto t pc memory).pc = Function.update s.pc t pc := rfl

inductive Turn (s : State θ) (t : θ) : State θ → Prop
  | spin {k memory} (hpc : s.pc t = .lock)
      (hm : s.memory.update t () .acquire k (fun _ => true) = some (true, memory)) :
        Turn s t (s.goto t .lock memory)
  | take {k memory} (hpc : s.pc t = .lock) (hr : s.remaining t ≠ 0)
      (hm : s.memory.update t () .acquire k (fun _ => true) = some (false, memory)) :
        Turn s t (s.goto t .read memory)
  | read (hpc : s.pc t = .read) : Turn s t
      { s.goto t (.write s.sharedVal.value) (s.memory.tick t) with sharedVal := s.sharedVal.readBy s.memory t }
  | write {value} (hpc : s.pc t = .write value) : Turn s t
      { s.goto t .unlock (s.memory.tick t) with sharedVal := s.sharedVal.writeBy s.memory t (value + 1) }
  | clear {k memory} (hpc : s.pc t = .unlock) (hm : s.memory.store t () .release k false = some memory) : Turn s t
      { s.goto t .lock memory with remaining := Function.update s.remaining t (s.remaining t - 1) }

variable {s s' : State θ} {t : θ}

theorem turn_step {k : Nat} (h : step s t k = some s') : Turn s t s' := by
  unfold step at h
  split at h
  · rename_i hpc
    obtain ⟨hr, h⟩ := Option.ite_none_left_eq_some.mp h
    obtain ⟨⟨v, memory⟩, hm, rfl⟩ := Option.map_eq_some_iff.mp h
    cases v with
    | true => exact .spin hpc hm
    | false => exact .take hpc hr hm
  · rename_i hpc
    cases h
    exact .read hpc
  · rename_i hpc
    cases h
    exact .write hpc
  · rename_i hpc
    obtain ⟨memory, hm, rfl⟩ := Option.map_eq_some_iff.mp h
    exact .clear hpc hm

/-! ## The flag in memory -/

/-- The message at `top` is the last one, and is clear when nobody is inside. A clear message below has
been taken. -/
structure Inv (s : State θ) (top : Nat) : Prop where
  unique : ∀ t u, (s.pc t).inside = true → (s.pc u).inside = true → t = u
  last : ∃ msg, s.memory.msgs () top = some msg ∧ (msg.value = true ↔ ∃ t, (s.pc t).inside = true) ∧
    (msg.value = false → s.sharedVal.WritableBy msg.view)
  free : ∀ n, top < n → s.memory.msgs () n = none
  bound : s.memory.Bound (.store ()) top
  taken : ∀ n msg, n < top → s.memory.msgs () n = some msg → msg.value = false → s.memory.msgs () (n + 1) ≠ none
  owned : ∀ t, (s.pc t).inside = true → s.sharedVal.WritableBy (s.memory.view t)
  chain : ∀ t, (s.pc t).inside = true → ∀ n, s.memory.view t (.store ()) ≤ n → n ≤ top → s.memory.msgs () n ≠ none

variable {k top : Nat} {v : Bool} {memory : Memory θ Unit fun _ => Bool}

theorem inv_init (sharedVal : ℤ) (times : θ → Nat) : Inv (threads sharedVal times).init 0 where
  unique t u h := by cases h
  last := ⟨_, rfl, by simp [threads, Pc.inside], fun _ => Cell.fresh_writable⟩
  free n hn := if_neg (by omega)
  bound := Memory.Bound.start _
  taken n _ hn := absurd hn (Nat.not_lt_zero n)
  owned t h := by cases h
  chain t h := by cases h

omit [DecidableEq θ] in
theorem Inv.le_top (h : Inv s top) {msg : Message θ Unit Bool} (hm : s.memory.msgs () k = some msg) : k ≤ top := by
  by_contra hlt
  rw [h.free k (by omega)] at hm
  cases hm

/-- A `test_and_set` adds a message; it is the last one when it follows the last one. -/
theorem Inv.msgs_update (h : Inv s top) (hm : s.memory.update t () .acquire k (fun _ => true) = some (v, memory)) :
    (∀ n, s.memory.msgs () n ≠ none → memory.msgs () n ≠ none) ∧
      (∀ n, max top (k + 1) < n → memory.msgs () n = none) ∧
      memory.Bound (.store ()) (max top (k + 1)) ∧
      ∀ n msg, n < max top (k + 1) → memory.msgs () n = some msg → msg.value = false →
        n ≤ top ∧ (n ≠ top → memory.msgs () (n + 1) ≠ none) := by
  obtain ⟨msg, hmsg, hfree, _⟩ := Memory.update_eq_some hm
  have hk := h.le_top hmsg
  obtain ⟨new, hnew, hval⟩ := Memory.update_msgs_self hm
  have hkeep : ∀ n, s.memory.msgs () n ≠ none → memory.msgs () n ≠ none := by
    intro n hn
    rwa [Memory.update_msgs_of_ne hm (by rintro rfl; exact hn hfree)]
  refine ⟨hkeep, fun n hn => ?_, (h.bound.mono (le_max_left ..)).update hm fun _ => le_max_right ..,
    fun n m hn hs hv => ?_⟩
  · rw [Memory.update_msgs_of_ne hm (by omega)]
    exact h.free n (by omega)
  · have hnk : n ≠ k + 1 := by
      rintro rfl
      rw [hnew] at hs
      cases hs
      rw [hval] at hv
      cases hv
    rw [Memory.update_msgs_of_ne hm hnk] at hs
    have hle := h.le_top hs
    exact ⟨hle, fun hnt => hkeep _ (h.taken n m (by omega) hs hv)⟩

theorem inside_update (hpc : (s.pc t).inside = false) (u : θ) :
    ((Function.update s.pc t .lock) u).inside = (s.pc u).inside := by
  by_cases hu : u = t
  · subst hu
    rw [Function.update_self, hpc]
    rfl
  · rw [Function.update_of_ne hu]

theorem Inv.spin (h : Inv s top) (hpc : s.pc t = .lock)
    (hm : s.memory.update t () .acquire k (fun _ => true) = some (true, memory)) :
    Inv (s.goto t .lock memory) (max top (k + 1)) := by
  obtain ⟨hkeep, hnone, hbound, hclear⟩ := h.msgs_update hm
  obtain ⟨msg, hmsg, hfree, _, hv, _⟩ := Memory.update_eq_some hm
  have hin := inside_update (s := s) (t := t) (by rw [hpc]; rfl)
  obtain ⟨last, hlast, hiff, hown⟩ := h.last
  obtain ⟨new, hnew, hval⟩ := Memory.update_msgs_self hm
  have hk := h.le_top hmsg
  refine ⟨fun u w hu hw => ?_, ?_, hnone, hbound, fun n m hn hs hf => ?_, fun u hu => ?_, fun u hu n hlo hhi => ?_⟩
  · rw [goto_pc, hin] at hu hw
    exact h.unique u w hu hw
  · simp only [goto_memory, goto_pc, hin, goto_sharedVal]
    by_cases hkt : k = top
    · subst hkt
      rw [hmsg] at hlast
      cases hlast
      rw [max_eq_right (Nat.le_succ k)]
      exact ⟨new, hnew, iff_of_true hval (hiff.mp hv.symm), fun hf => by rw [hval] at hf; cases hf⟩
    · have hne : top ≠ k + 1 := by
        rintro rfl
        rw [hfree] at hlast
        cases hlast
      rw [max_eq_left (by omega)]
      exact ⟨last, by rw [Memory.update_msgs_of_ne hm hne]; exact hlast, hiff, hown⟩
  · obtain ⟨hnt, hsucc⟩ := hclear n m hn hs hf
    by_cases hn' : n = top
    · subst hn'
      rw [goto_memory]
      obtain rfl : k = n := by omega
      rw [hnew]
      exact Option.some_ne_none _
    · exact hsucc hn'
  · rw [goto_pc, hin] at hu
    exact (h.owned u hu).mono (Memory.update_le hm u)
  · rw [goto_pc, hin] at hu
    by_cases hnt : n ≤ top
    · exact hkeep n (h.chain u hu n (le_trans (Memory.update_le hm u _) hlo) hnt)
    · rw [goto_memory, show n = k + 1 by omega, hnew]
      exact Option.some_ne_none _

/-- The clear message that is taken is the last one. -/
theorem Inv.take_last (h : Inv s top)
    (hm : s.memory.update t () .acquire k (fun _ => true) = some (false, memory)) :
    k = top ∧ ∀ u, (s.pc u).inside = false := by
  obtain ⟨msg, hmsg, hfree, _, hv, _⟩ := Memory.update_eq_some hm
  have hkt : k = top := by
    by_contra hne
    have hle := h.le_top hmsg
    exact h.taken k msg (by omega) hmsg hv.symm hfree
  subst hkt
  refine ⟨rfl, fun u => Bool.eq_false_of_not_eq_true fun hu => ?_⟩
  obtain ⟨last, hlast, hiff, _⟩ := h.last
  rw [hmsg] at hlast
  cases hlast
  rw [hiff.mpr ⟨u, hu⟩] at hv
  cases hv

theorem Inv.take (h : Inv s top) (hm : s.memory.update t () .acquire k (fun _ => true) = some (false, memory)) :
    Inv (s.goto t .read memory) (k + 1) := by
  obtain ⟨rfl, hout⟩ := h.take_last hm
  obtain ⟨hkeep, hnone, hbound, hclear⟩ := h.msgs_update hm
  rw [max_eq_right (Nat.le_succ k)] at hnone hbound hclear
  obtain ⟨new, hnew, hval⟩ := Memory.update_msgs_self hm
  have hin : ∀ u, ((s.goto t .read memory).pc u).inside = true → u = t := by
    intro u hu
    by_contra hut
    rw [goto_pc, Function.update_of_ne hut, hout u] at hu
    cases hu
  refine ⟨fun u w hu hw => (hin u hu).trans (hin w hw).symm, ⟨new, hnew, iff_of_true hval ⟨t, ?_⟩, ?_⟩,
    hnone, hbound, fun n m hn hs hf => ?_, fun u hu => ?_, fun u hu n hlo hhi => ?_⟩
  · simp [Pc.inside]
  · intro hf
    rw [hval] at hf
    cases hf
  · by_cases hnk : n = k
    · subst hnk
      rw [goto_memory, hnew]
      exact Option.some_ne_none _
    · exact (hclear n m hn hs hf).2 hnk
  · obtain rfl := hin u hu
    obtain ⟨msg, hmsg, hv, hle⟩ := Memory.update_acquires hm rfl
    obtain ⟨last, hlast, _, hown⟩ := h.last
    rw [hmsg] at hlast
    cases hlast
    exact (hown hv).mono hle
  · obtain rfl := hin u hu
    have hk := Memory.update_know hm
    rw [goto_memory] at hlo
    rw [goto_memory, show n = k + 1 by omega, hnew]
    exact Option.some_ne_none _

theorem Inv.clear (h : Inv s top) (hpc : s.pc t = .unlock)
    (hm : s.memory.store t () .release k false = some memory) :
    Inv { s.goto t .lock memory with remaining := Function.update s.remaining t (s.remaining t - 1) } k := by
  have hin : (s.pc t).inside = true := by rw [hpc]; rfl
  obtain ⟨hfree, hlt, _⟩ := Memory.store_eq_some hm
  have hview : s.memory.view t (.store ()) < k := lt_of_le_of_lt Memory.view_le_floor hlt
  -- The timestamps that the holder does not know of are taken up to the last message.
  have htop : top < k := by
    by_contra hle
    exact h.chain t hin k (le_of_lt hview) (by omega) hfree
  obtain ⟨new, hnew, hval, hpass⟩ := Memory.store_msgs_self hm rfl
  have hout : ∀ u, ((s.goto t .lock memory).pc u).inside = false := by
    intro u
    by_cases hut : u = t
    · subst hut
      simp [Pc.inside]
    · rw [goto_pc, Function.update_of_ne hut]
      exact Bool.eq_false_of_not_eq_true fun hu => hut (h.unique u t hu hin)
  have hnot : ∀ u, ¬ ((s.goto t .lock memory).pc u).inside = true := fun u hu => by
    rw [hout u] at hu
    cases hu
  refine ⟨fun u _ hu => absurd hu (hnot u), ⟨new, hnew, ?_, fun _ => (h.owned t hin).mono hpass⟩, fun n hn => ?_,
    (h.bound.mono (le_of_lt htop)).store hm fun _ => le_refl k, fun n m hn hs hf => ?_,
      fun u hu => absurd hu (hnot u), fun u hu => absurd hu (hnot u)⟩
  · refine iff_of_false (by rw [hval]; exact Bool.false_ne_true) ?_
    rintro ⟨u, hu⟩
    exact hnot u hu
  · rw [goto_memory, Memory.store_msgs_of_ne hm (by omega)]
    exact h.free n (by omega)
  · rw [goto_memory, Memory.store_msgs_of_ne hm (by omega)] at hs
    have hnt := h.le_top hs
    have hne : n ≠ top := by
      rintro rfl
      obtain ⟨last, hlast, hiff, _⟩ := h.last
      rw [hs] at hlast
      cases hlast
      rw [hiff.mpr ⟨t, hin⟩] at hf
      cases hf
    rw [goto_memory]
    by_cases hnk : n + 1 = k
    · rw [hnk, hnew]
      exact Option.some_ne_none _
    · rw [Memory.store_msgs_of_ne hm hnk]
      exact h.taken n m (by omega) hs hf

/-- An access of the thread inside. -/
theorem Inv.access (h : Inv s top) (ht : (s.pc t).inside = true) {pc : Pc} (hpc : pc.inside = true) {c : Cell θ ℤ}
    (hc : c.WritableBy ((s.memory.tick t).view t)) :
    Inv { s.goto t pc (s.memory.tick t) with sharedVal := c } top := by
  have hin : ∀ u, (Function.update s.pc t pc u).inside = true → u = t := by
    intro u hu
    by_contra hut
    rw [Function.update_of_ne hut] at hu
    exact hut (h.unique u t hu ht)
  obtain ⟨last, hlast, hiff, _⟩ := h.last
  have hval := hiff.mpr ⟨t, ht⟩
  refine ⟨fun u w hu hw => (hin u hu).trans (hin w hw).symm, ⟨last, hlast, iff_of_true hval ⟨t, ?_⟩, ?_⟩, h.free,
    h.bound.tick (by simp), h.taken, fun u hu => ?_, fun u hu n hlo => ?_⟩
  · simpa using hpc
  · intro hf
    rw [hval] at hf
    cases hf
  · obtain rfl := hin u hu
    exact hc
  · obtain rfl := hin u hu
    exact h.chain u ht n (le_trans (Memory.tick_le u _) hlo)

theorem Inv.turn (h : Inv s top) (ht : Turn s t s') : ∃ top, Inv s' top := by
  cases ht with
  | spin hpc hm => exact ⟨_, h.spin hpc hm⟩
  | take hpc hr hm => exact ⟨_, h.take hm⟩
  | read hpc =>
    have hin : (s.pc t).inside = true := by rw [hpc]; rfl
    exact ⟨top, h.access hin rfl (h.owned t hin).readBy⟩
  | write hpc =>
    have hin : (s.pc t).inside = true := by rw [hpc]; rfl
    exact ⟨top, h.access hin rfl (h.owned t hin).writeBy⟩
  | clear hpc hm => exact ⟨_, h.clear hpc hm⟩

omit [DecidableEq θ] in
theorem Inv.not_racy (h : Inv s top) (t : θ) : ¬ s.Racy t := by
  unfold State.Racy
  cases hpc : s.pc t with
  | lock => exact id
  | read => exact not_not_intro (h.owned t (by rw [hpc]; rfl)).readable
  | write value => exact not_not_intro (h.owned t (by rw [hpc]; rfl))
  | unlock => exact id

/-! ## The lock over sequentially consistent memory -/

/-- The flag of the simple lock is set while a thread is inside. -/
structure Matches (s : State θ) (a : SpinLock.State θ) : Prop where
  flag : a.flag = true ↔ ∃ t, (s.pc t).inside = true
  sharedVal : a.sharedVal = s.sharedVal.value
  remaining : a.remaining = s.remaining
  pc : a.pc = s.pc

/-- A thread that spins does nothing; any other step is the step of the simple lock. -/
theorem Matches.turn {a : SpinLock.State θ} (h : Inv s top) (hm : Matches s a) (ht : Turn s t s') :
    Matches s' a ∨ ∃ a', SpinLock.step a t = some a' ∧ Matches s' a' := by
  cases ht with
  | spin hpc _ =>
    refine .inl ⟨?_, hm.sharedVal, hm.remaining, ?_⟩
    · simp only [goto_pc, inside_update (s := s) (t := t) (by rw [hpc]; rfl)]
      exact hm.flag
    · rw [goto_pc, ← hpc, Function.update_eq_self, hm.pc]
  | take hpc hr hupd =>
    have hout := (h.take_last hupd).2
    have hf : a.flag = false := Bool.eq_false_of_not_eq_true fun hf => by
      obtain ⟨u, hu⟩ := hm.flag.mp hf
      rw [hout u] at hu
      cases hu
    refine .inr ⟨_, by simp only [SpinLock.step, hm.pc, hpc, hm.remaining, if_neg hr, hf]; rfl, ?_⟩
    exact ⟨iff_of_true rfl ⟨t, by simp [Pc.inside]⟩, hm.sharedVal,
      hm.remaining, by simp [SpinLock.State.goto, hm.pc]⟩
  | read hpc =>
    refine .inr ⟨_, by simp only [SpinLock.step, hm.pc, hpc]; rfl, ?_⟩
    have hin : (s.pc t).inside = true := by rw [hpc]; rfl
    refine ⟨iff_of_true (hm.flag.mpr ⟨t, hin⟩) ⟨t, by simp [Pc.inside]⟩, hm.sharedVal, hm.remaining, ?_⟩
    simp [SpinLock.State.goto, hm.pc, hm.sharedVal]
  | @write value hpc =>
    refine .inr ⟨_, by simp only [SpinLock.step, hm.pc, hpc]; rfl, ?_⟩
    have hin : (s.pc t).inside = true := by rw [hpc]; rfl
    refine ⟨iff_of_true (hm.flag.mpr ⟨t, hin⟩) ⟨t, by simp [Pc.inside]⟩, rfl, hm.remaining, ?_⟩
    simp [SpinLock.State.goto, hm.pc]
  | @clear k memory hpc hst =>
    refine .inr ⟨_, by simp only [SpinLock.step, hm.pc, hpc]; rfl, ?_⟩
    refine ⟨iff_of_false Bool.false_ne_true ?_, hm.sharedVal, ?_, by simp [SpinLock.State.goto, hm.pc]⟩
    · rintro ⟨u, hu⟩
      obtain ⟨new, hnew, hiff, _⟩ := (h.clear hpc hst).last
      obtain ⟨msg, hmsg, hval, _⟩ := Memory.store_msgs_self hst rfl
      rw [goto_memory, hmsg] at hnew
      cases hnew
      rw [hiff.mpr ⟨u, hu⟩] at hval
      cases hval
    · simp only [hm.remaining]

theorem matched {sharedVal : ℤ} {times : θ → Nat} (h : (threads sharedVal times).Reachable s) :
    ∃ a, (SpinLock.threads sharedVal times).Reachable a ∧ (∃ top, Inv s top) ∧ Matches s a :=
  h.simulate (A := SpinLock.threads sharedVal times) (R := fun s a => (∃ top, Inv s top) ∧ Matches s a)
    ⟨⟨0, inv_init sharedVal times⟩, ⟨by simp [SpinLock.threads, threads, Pc.inside], rfl, rfl, rfl⟩⟩
    fun s i s' a ⟨⟨top, hi⟩, hm⟩ hs => by
      have ht := turn_step hs
      rcases hm.turn hi ht with hm' | ⟨a', ha, hm'⟩
      · exact .inl ⟨hi.turn ht, hm'⟩
      · exact .inr ⟨i.1, a', ha, hi.turn ht, hm'⟩

/-- No run races on the counter, and each of its states is one of the lock over sequentially consistent memory. -/
theorem spinLockOrders_refines (sharedVal : ℤ) (times : θ → Nat) (s : State θ)
    (h : (threads sharedVal times).Reachable s) :
    (∀ t, ¬ s.Racy t) ∧ ∃ a, (SpinLock.threads sharedVal times).Reachable a ∧ Matches s a := by
  obtain ⟨a, ha, ⟨top, hi⟩, hm⟩ := matched h
  exact ⟨hi.not_racy, a, ha, hm⟩

/-! ## Progress -/

def State.Done (s : State θ) (t : θ) : Prop := s.remaining t = 0 ∧ s.pc t = .lock

/-- Somebody can go on: the thread inside, or else any thread that wants to enter. -/
theorem Inv.progress (h : Inv s top) {t : θ} (ht : ¬ s.Done t) :
    ∃ u k s', step s u k = some s' ∧ s'.pc u ≠ s.pc u := by
  obtain ⟨last, hlast, hiff, _⟩ := h.last
  have hnext := h.free (top + 1) (Nat.lt_succ_self top)
  by_cases hin : ∃ u, (s.pc u).inside = true
  · obtain ⟨u, hu⟩ := hin
    cases hpc : s.pc u with
    | lock =>
      rw [hpc] at hu
      cases hu
    | read => exact ⟨u, 0, _, by simp only [step, hpc]; rfl, by simp [hpc]⟩
    | write value => exact ⟨u, 0, _, by simp only [step, hpc]; rfl, by simp [hpc]⟩
    | unlock =>
      have hfl : s.memory.floor u () .release < top + 1 := Nat.lt_succ_of_le (h.bound.view u)
      have hst : ∃ memory, s.memory.store u () .release (top + 1) false = some memory := by
        simp only [Memory.store, hnext, if_pos hfl]
        exact ⟨_, rfl⟩
      obtain ⟨memory, hst⟩ := hst
      exact ⟨u, top + 1, _, by simp only [step, hpc, hst]; rfl, by simp [hpc]⟩
  · have hval : last.value = false := Bool.eq_false_of_not_eq_true fun hv => hin (hiff.mp hv)
    have hpc : s.pc t = .lock := by
      cases hpc : s.pc t with
      | lock => rfl
      | _ => exact absurd ⟨t, by rw [hpc]; rfl⟩ hin
    have hr : s.remaining t ≠ 0 := fun hr => ht ⟨hr, hpc⟩
    have hfl : s.memory.floor t () .acquire ≤ top := h.bound.view t
    have hupd : ∃ memory, s.memory.update t () .acquire top (fun _ => true) = some (false, memory) := by
      simp only [Memory.update, hlast, hnext, if_pos hfl, hval]
      exact ⟨_, rfl⟩
    obtain ⟨memory, hupd⟩ := hupd
    exact ⟨t, top, _, by simp only [step, hpc, if_neg hr, hupd]; rfl, by simp [hpc]⟩

variable [Fintype θ]

/-- The lock never stays taken for good, and when all threads are done no increment is lost. -/
theorem spinLockOrders_reachable (sharedVal : ℤ) (times : θ → Nat) (s : State θ)
    (h : (threads sharedVal times).Reachable s) :
    ((∃ t, ¬ s.Done t) → ∃ t k s', step s t k = some s' ∧ s'.pc t ≠ s.pc t) ∧
      ((∀ t, s.Done t) → s.sharedVal.value = sharedVal + ∑ t, (times t : ℤ)) := by
  obtain ⟨a, ha, ⟨top, hi⟩, hm⟩ := matched h
  refine ⟨fun ⟨t, ht⟩ => hi.progress ht, fun hdone => ?_⟩
  have hia : SpinLock.Inv sharedVal times a := ha.inv (SpinLock.inv_init sharedVal times) fun s t s' hi hs =>
    hi.turn (SpinLock.turn_step hs)
  have hzero : ∑ t, a.owed t = 0 := Finset.sum_eq_zero fun t _ => by
    simp [SpinLock.State.owed, hm.pc, hm.remaining, (hdone t).1, (hdone t).2]
  rw [← hm.sharedVal, ← hia.counted, hzero, add_zero]

end

def twoThreads : System (State Bool) (Bool × Nat) := threads 0 fun _ => 1

theorem spinLockOrders_refines_two :
    ∃ s, twoThreads.run twoThreads.init [(false, 0), (true, 1), (false, 0)] = some s ∧
    (∀ t, ¬ s.Racy t) ∧ ∃ a, (SpinLock.threads 0 fun _ : Bool => 1).Reachable a ∧ Matches s a := by
  obtain ⟨s, hs⟩ : ∃ s, twoThreads.run twoThreads.init [(false, 0), (true, 1), (false, 0)] = some s := ⟨_, rfl⟩
  exact ⟨s, hs, spinLockOrders_refines 0 (fun _ => 1) s (System.reachable_of_run _ .init hs)⟩

def twoRounds : List (Bool × Nat) :=
  [(false, 0), (true, 1), (false, 0), (false, 0), (false, 3), (true, 3), (true, 0), (true, 0), (true, 5)]

/-- The second thread spins once while the first one is inside. -/
theorem spinLockOrders_reachable_two : ∃ s, twoThreads.run twoThreads.init twoRounds = some s ∧
    s.sharedVal.value = 0 + ∑ _t : Bool, ((1 : Nat) : ℤ) := by
  obtain ⟨s, hs⟩ : ∃ s, twoThreads.run twoThreads.init twoRounds = some s := ⟨_, rfl⟩
  refine ⟨s, hs, (spinLockOrders_reachable 0 (fun _ => 1) s (System.reachable_of_run _ .init hs)).2 ?_⟩
  obtain rfl := Option.some.inj hs
  intro t
  cases t <;> exact ⟨rfl, rfl⟩

end Playground.SpinLockOrders
