import Playground.BoundedBufferSound

/-!
# Calls of the bounded buffer

What a critical section does, for those who call `produce` and `consume`: it
completes the call or leaves its thread waiting, the other threads stay in
their calls, and at most one of them is woken.
-/

namespace Playground.BoundedBuffer

open Monitor

inductive Side
  | producing
  | consuming
  deriving DecidableEq

section
variable {T α : Type}

def Pc.call : Pc α → Option Side
  | .idle => none
  | .waitNotFull _ => some .producing
  | .wokenNotFull _ => some .producing
  | .waitNotEmpty => some .consuming
  | .wokenNotEmpty => some .consuming

def Pc.isWoken (c : Pc α) : Bool := c.isWokenNotFull || c.isWokenNotEmpty

def State.calls (s : State T α) (t : T) : Option Side := (s.pc t).call

def State.completed (s : State T α) : Side → Nat
  | .producing => s.produced.length
  | .consuming => s.consumed.length

variable [Fintype T]

/-- The calls that were started: those that are completed and those under way. -/
def State.entered (s : State T α) (side : Side) : Nat := s.completed side + count (· == some side) s.calls

variable [DecidableEq T]

structure Completes (side : Side) (s s' : State T α) (t : T) : Prop where
  calls : s'.calls = Function.update s.calls t none
  completed : s'.completed = Function.update s.completed side (s.completed side + 1)
  woken : count Pc.isWoken s'.pc + (s.pc t).isWoken.toNat ≤ count Pc.isWoken s.pc + 1

structure Waits (side : Side) (s s' : State T α) (t : T) : Prop where
  calls : s'.calls = Function.update s.calls t (some side)
  completed : s'.completed = s.completed
  woken : count Pc.isWoken s'.pc + (s.pc t).isWoken.toNat ≤ count Pc.isWoken s.pc

variable {capacity : Nat} {s s' : State T α} {t : T} {side : Side}

/-! ## Critical sections -/

omit [Fintype T] [DecidableEq T] in
theorem wake_call (c : Pc α) : (wake c).call = c.call := by cases c <;> rfl

omit [Fintype T] in
theorem calls_update {pc : T → Pc α} (t : T) (c : Pc α) :
    (fun u => (Function.update pc t c u).call) = Function.update (fun u => (pc u).call) t c.call := by
  funext u
  by_cases hu : u = t
  · rw [hu, Function.update_self, Function.update_self]
  · rw [Function.update_of_ne hu, Function.update_of_ne hu]

/-- `notify_one` leaves everybody in their calls, and wakes one thread at most. -/
theorem notifyOne_calls {waits : Pc α → Bool} {pc pc' : T → Pc α} {w : Option T}
    (h : notifyOne waits wake pc w = some pc') :
    (fun u => (pc' u).call) = (fun u => (pc u).call) ∧ count Pc.isWoken pc' ≤ count Pc.isWoken pc + 1 := by
  constructor
  · funext u
    rcases notifyOne_woken h u with hu | ⟨_, hu⟩
    · rw [hu]
    · rw [hu, wake_call]
  · rcases notifyOne_cases h with ⟨_, rfl⟩ | ⟨u, _, rfl⟩
    · omega
    · have hcount := count_update Pc.isWoken pc u (wake (pc u))
      have hle := Bool.toNat_le (wake (pc u)).isWoken
      omega

theorem completes_of_notify {waits : Pc α → Bool} {pc : T → Pc α} {w : Option T}
    (hn : notifyOne waits wake s.pc w = some pc) (ht : waits (s.pc t) = false)
    (hpc : s'.pc = Function.update pc t .idle)
    (hc : s'.completed = Function.update s.completed side (s.completed side + 1)) : Completes side s s' t := by
  obtain ⟨hcalls, hwoken⟩ := notifyOne_calls hn
  have hsame : pc t = s.pc t := by
    rcases notifyOne_woken hn t with h | ⟨h, _⟩
    · exact h
    · rw [ht] at h
      cases h
  refine ⟨?_, hc, ?_⟩
  · show (fun u => (s'.pc u).call) = Function.update (fun u => (s.pc u).call) t none
    rw [hpc, calls_update, hcalls]
    rfl
  · have hcount := count_update Pc.isWoken pc t .idle
    rw [hsame] at hcount
    have hidle : (Pc.isWoken (.idle : Pc α)).toNat = 0 := rfl
    rw [hpc]
    omega

theorem waits_of_update {c : Pc α} (hcall : c.call = some side) (hw : c.isWoken = false) :
    Waits side s { s with pc := Function.update s.pc t c } t := by
  refine ⟨?_, rfl, ?_⟩
  · show (fun u => (Function.update s.pc t c u).call) = Function.update (fun u => (s.pc u).call) t (some side)
    rw [calls_update, hcall]
  · have hcount := count_update Pc.isWoken s.pc t c
    rw [hw] at hcount
    exact hcount.le

theorem produce_effect {item : α} {w : Option T} (ht : (s.pc t).waitsNotEmpty = false)
    (hs : produce capacity s t item w = some s') : Completes .producing s s' t ∨ Waits .producing s s' t := by
  unfold produce at hs
  split at hs
  · obtain ⟨pc, hn, rfl⟩ := Option.map_eq_some_iff.mp hs
    refine Or.inl (completes_of_notify hn ht rfl ?_)
    funext x
    cases x with
    | producing => exact List.length_append
    | consuming => rfl
  · cases hs
    exact Or.inr (waits_of_update rfl rfl)

theorem consume_effect {w : Option T} (ht : (s.pc t).waitsNotFull = false) (hs : consume s t w = some s') :
    Completes .consuming s s' t ∨ Waits .consuming s s' t := by
  unfold consume at hs
  split at hs
  · cases hs
    exact Or.inr (waits_of_update rfl rfl)
  · obtain ⟨pc, hn, rfl⟩ := Option.map_eq_some_iff.mp hs
    refine Or.inl (completes_of_notify hn ht rfl ?_)
    funext x
    cases x with
    | producing => rfl
    | consuming => exact List.length_append

/-! ## Steps -/

theorem produce_step {item : α} {w : Option T} (hs : step capacity s (.produce t item w) = some s') :
    s.pc t = .idle ∧ (Completes .producing s s' t ∨ Waits .producing s s' t) := by
  unfold step at hs
  cases hp : s.pc t with
  | idle =>
    simp only [hp] at hs
    exact ⟨rfl, produce_effect (by rw [hp]; rfl) hs⟩
  | _ => simp only [hp, reduceCtorEq] at hs

theorem consume_step {w : Option T} (hs : step capacity s (.consume t w) = some s') :
    s.pc t = .idle ∧ (Completes .consuming s s' t ∨ Waits .consuming s s' t) := by
  unfold step at hs
  cases hp : s.pc t with
  | idle =>
    simp only [hp] at hs
    exact ⟨rfl, consume_effect (by rw [hp]; rfl) hs⟩
  | _ => simp only [hp, reduceCtorEq] at hs

theorem recheck_step {w : Option T} (hs : step capacity s (.recheck t w) = some s') :
    ∃ side, s.calls t = some side ∧ (s.pc t).isWoken = true ∧ (Completes side s s' t ∨ Waits side s s' t) := by
  unfold step at hs
  cases hp : s.pc t with
  | wokenNotFull item =>
    simp only [hp] at hs
    exact ⟨.producing, by rw [State.calls, hp]; rfl, rfl, produce_effect (by rw [hp]; rfl) hs⟩
  | wokenNotEmpty =>
    simp only [hp] at hs
    exact ⟨.consuming, by rw [State.calls, hp]; rfl, rfl, consume_effect (by rw [hp]; rfl) hs⟩
  | _ => simp only [hp, reduceCtorEq] at hs

theorem spurious_step (hs : step capacity s (.spurious t) = some s') :
    s'.calls = s.calls ∧ s'.completed = s.completed ∧ count Pc.isWoken s'.pc ≤ count Pc.isWoken s.pc + 1 := by
  simp only [step, Option.ite_none_right_eq_some, Option.some.injEq] at hs
  obtain ⟨_, rfl⟩ := hs
  refine ⟨?_, rfl, ?_⟩
  · show (fun u => (Function.update s.pc t (wake (s.pc t)) u).call) = fun u => (s.pc u).call
    rw [calls_update, wake_call]
    exact Function.update_eq_self t _
  · have hcount := count_update Pc.isWoken s.pc t (wake (s.pc t))
    have hle := Bool.toNat_le (wake (s.pc t)).isWoken
    show count Pc.isWoken (Function.update s.pc t (wake (s.pc t))) ≤ _
    omega

theorem calls_self (h : Completes side s s' t ∨ Waits side s s' t) :
    s'.calls t = none ∨ s'.calls t = some side := by
  cases h with
  | inl h => exact Or.inl (by rw [h.calls, Function.update_self])
  | inr h => exact Or.inr (by rw [h.calls, Function.update_self])

theorem calls_other {u : T} (h : Completes side s s' t ∨ Waits side s s' t) (hu : u ≠ t) :
    s'.calls u = s.calls u := by
  cases h with
  | inl h => rw [h.calls, Function.update_of_ne hu]
  | inr h => rw [h.calls, Function.update_of_ne hu]

/-! ## Started calls -/

omit [DecidableEq T] in
theorem entered_init (side : Side) : ({} : State T α).entered side = 0 := by
  have hnone : count (· == some side) ({} : State T α).calls = 0 := count_eq_zero.mpr fun _ => rfl
  rw [State.entered, hnone]
  cases side <;> rfl

omit [Fintype T] [DecidableEq T] in
theorem some_beq_some_side (x : Side) : (some side == some x) = (x == side) := by
  rw [Option.some_beq_some, Bool.beq_comm]

/-- A call that was under way before the critical section is counted already. -/
theorem entered_change (h : Completes side s s' t ∨ Waits side s s' t) (x : Side) :
    s'.entered x + (s.calls t == some x).toNat = s.entered x + (x == side).toNat := by
  unfold State.entered
  cases h with
  | inl h =>
    have hcount := count_update (· == some x) s.calls t none
    have hnone : (none == some x) = false := rfl
    rw [hnone, Bool.toNat_false] at hcount
    rw [h.calls, h.completed]
    by_cases hx : x = side
    · subst hx
      rw [Function.update_self, beq_self_eq_true, Bool.toNat_true]
      omega
    · rw [Function.update_of_ne hx, beq_eq_false_iff_ne.mpr hx, Bool.toNat_false]
      omega
  | inr h =>
    have hcount := count_update (· == some x) s.calls t (some side)
    rw [some_beq_some_side] at hcount
    rw [h.calls, h.completed]
    omega

theorem entered_of_call (h : Completes side s s' t ∨ Waits side s s' t) (hc : s.calls t = none) (x : Side) :
    s'.entered x = s.entered x + (x == side).toNat := by
  have hchange := entered_change h x
  rw [hc] at hchange
  exact hchange

theorem entered_of_recheck (h : Completes side s s' t ∨ Waits side s s' t) (hc : s.calls t = some side) (x : Side) :
    s'.entered x = s.entered x := by
  have hchange := entered_change h x
  rw [hc, some_beq_some_side] at hchange
  exact Nat.add_right_cancel hchange

/-! ## Waiting -/

omit [Fintype T] [DecidableEq T] in
theorem waits_of_call (hcall : s.calls t = some side) (hw : (s.pc t).isWoken = false) :
    (side = .producing ∧ (s.pc t).waitsNotFull = true) ∨ (side = .consuming ∧ (s.pc t).waitsNotEmpty = true) := by
  unfold State.calls at hcall
  cases hp : s.pc t with
  | idle =>
    rw [hp] at hcall
    cases hcall
  | waitNotFull item =>
    rw [hp] at hcall
    exact Or.inl ⟨(Option.some.inj hcall).symm, rfl⟩
  | waitNotEmpty =>
    rw [hp] at hcall
    exact Or.inr ⟨(Option.some.inj hcall).symm, rfl⟩
  | _ =>
    rw [hp] at hw
    cases hw

omit [Fintype T] [DecidableEq T] in
theorem idle_of_call (hcall : s.calls t = none) : s.pc t = .idle := by
  unfold State.calls at hcall
  cases hp : s.pc t with
  | idle => rfl
  | _ =>
    rw [hp] at hcall
    cases hcall

omit [Fintype T] [DecidableEq T] in
theorem calls_of_idle (h : s.pc t = .idle) : s.calls t = none := by
  rw [State.calls, h]
  rfl

omit [Fintype T] [DecidableEq T] in
theorem woken_of_idle (h : s.pc t = .idle) : (s.pc t).isWoken.toNat = 0 := by
  rw [h]
  rfl

/-! ## What is enabled -/

theorem produce_enabled (capacity : Nat) (s : State T α) (t : T) (item : α) :
    ∃ w s', produce capacity s t item w = some s' := by
  by_cases hlt : s.buffer.length < capacity
  · obtain ⟨w, pc, hn⟩ := exists_notifyOne Pc.waitsNotEmpty wake s.pc
    exact ⟨w, _, by rw [produce, if_pos hlt, hn]; rfl⟩
  · exact ⟨none, _, by rw [produce, if_neg hlt]⟩

theorem consume_enabled (s : State T α) (t : T) : ∃ w s', consume s t w = some s' := by
  cases hb : s.buffer with
  | nil => exact ⟨none, _, by rw [consume, hb]⟩
  | cons item buffer =>
    obtain ⟨w, pc, hn⟩ := exists_notifyOne Pc.waitsNotFull wake s.pc
    exact ⟨w, _, by simp only [consume, hb, hn]; rfl⟩

theorem recheck_enabled (capacity : Nat) (h : (s.pc t).isWoken = true) :
    ∃ w s', step capacity s (.recheck t w) = some s' := by
  cases hp : s.pc t with
  | wokenNotFull item =>
    obtain ⟨w, s', hs⟩ := produce_enabled capacity s t item
    exact ⟨w, s', by simp only [step, hp, hs]⟩
  | wokenNotEmpty =>
    obtain ⟨w, s', hs⟩ := consume_enabled s t
    exact ⟨w, s', by simp only [step, hp, hs]⟩
  | _ =>
    rw [hp] at h
    cases h

end

end Playground.BoundedBuffer
