import Mathlib.Data.Fintype.Card
import Playground.ThreadSafeQueue

/-!
# No wakeup is lost

While a consumer waits, every queued item is matched by a thread that will
see to it (`isCredit`): a `push` that has yet to notify, or a woken consumer
that has yet to take its item. Once the queue is closed, a waiting consumer
is matched by a `close` that has yet to notify.
-/

namespace Playground.ThreadSafeQueue

open Monitor

/-! ## Program points -/

section
variable {α : Type}

/-- A thread that will see to one item. -/
def Pc.isCredit (c : Pc α) : Bool := (c.isEnqueued || c.isWoken) || c.isTaking

theorem ready_eq_false {x : Shared α} : ready x = false ↔ x.queue = [] ∧ x.closed = false := by
  simp [ready]

/-- The move is none that `cv_` could notice. -/
def Quiet (c c' : Pc α) : Prop :=
  c'.isClosing = c.isClosing ∧ c' ≠ .popWait ∧ c'.isWaiting = false ∧ c'.isCredit = c.isCredit

theorem quiet_enter (op : Op α) : Quiet .idle (enter op) := by
  cases op <;> exact ⟨rfl, by simp [enter], rfl, rfl⟩

theorem quiet_acquire {c c' : Pc α} (h : acquire c = some c') : Quiet c c' := by
  cases c <;> cases h <;> exact ⟨rfl, by simp, rfl, rfl⟩

theorem quiet_release {c c' : Pc α} (h : release c = some c') : c = .popWait ∧ c' = .waiting ∨ Quiet c c' := by
  cases c <;> cases h <;> first | exact Or.inl ⟨rfl, rfl⟩ | exact Or.inr ⟨rfl, by simp, rfl, rfl⟩

end

section
variable {T α : Type} [Fintype T]

theorem count_isCredit (pc : T → Pc α) :
    count Pc.isCredit pc = count Pc.isEnqueued pc + count Pc.isWoken pc + count Pc.isTaking pc := by
  have h₁ : ∀ c : Pc α, (c.isEnqueued || c.isWoken) = true → c.isTaking = false := by
    intro c hc
    cases c <;> first | rfl | cases hc
  have h₂ : ∀ c : Pc α, c.isEnqueued = true → c.isWoken = false := by
    intro c hc
    cases c <;> first | rfl | cases hc
  rw [← count_or h₂, ← count_or h₁]
  rfl

structure Inv (s : State T α) : Prop where
  exclusive : (program α).Exclusive s
  wait : ∀ t, s.pc t = .popWait → ready s.shared = false
  closing : ∀ t, (s.pc t).isClosing = true → s.shared.closed = true
  wake : s.shared.closed = false → Covered Pc.isWaiting Pc.isCredit s.shared.queue.length s.pc
  notify : s.shared.closed = true → Covered Pc.isWaiting Pc.isClosing 1 s.pc

variable [DecidableEq T]

theorem inv_init : Inv (threadSafeQueue T α).init where
  exclusive := fun t => iff_of_false (by simp [threadSafeQueue]) Bool.false_ne_true
  wait := by intro t h; cases h
  closing := by intro t h; cases h
  wake := fun _ _ => Nat.zero_le _
  notify := by intro h; cases h

/-! ## One thread moves -/

section
variable {s : State T α} {t : T} {c : Pc α} {x : Shared α} {o : Option T}

theorem Inv.update (h : Inv s) (hex : (program α).Exclusive { s.goto t c with shared := x, owner := o })
    (hclosed : x.closed = s.shared.closed) (hown : x = s.shared ∨ (s.pc t).holds = true)
    (hclosing : c.isClosing = (s.pc t).isClosing) (hwait : c = .popWait ∨ c.isWaiting = true → ready x = false)
    (hpay : x.queue.length = 0 ∨ c.isWaiting = false ∧
      x.queue.length + (s.pc t).isCredit.toNat ≤ s.shared.queue.length + c.isCredit.toNat) :
    Inv { s.goto t c with shared := x, owner := o } where
  exclusive := hex
  wait := by
    intro u hu
    change Function.update s.pc t c u = .popWait at hu
    show ready x = false
    by_cases hut : u = t
    · rw [hut, Function.update_self] at hu
      exact hwait (Or.inl hu)
    · rw [Function.update_of_ne hut] at hu
      rcases hown with rfl | hown
      · exact h.wait u hu
      · exact absurd (h.exclusive.eq (by rw [hu]; rfl) hown) hut
  closing := by
    intro u hu
    change (Function.update s.pc t c u).isClosing = true at hu
    show x.closed = true
    rw [hclosed]
    by_cases hut : u = t
    · rw [hut, Function.update_self, hclosing] at hu
      exact h.closing t hu
    · rw [Function.update_of_ne hut] at hu
      exact h.closing u hu
  wake := fun hc => (h.wake (hclosed ▸ hc)).update (hpay.imp_right fun ⟨hnw, hle⟩ => ⟨hnw, Or.inr hle⟩)
  notify := by
    intro hc
    change x.closed = true at hc
    have hnw : c.isWaiting = false := by
      by_contra hcon
      have := (ready_eq_false.mp (hwait (Or.inr (by simpa using hcon)))).2
      rw [hc] at this
      cases this
    exact (h.notify (hclosed ▸ hc)).update (Or.inr ⟨hnw, Or.inr (by rw [hclosing])⟩)

end

/-! ## One step -/

section
variable {s s' : State T α} {t : T}

theorem Inv.quiet (h : Inv s) {c : Pc α} {o : Option T} (hq : Quiet (s.pc t) c)
    (hex : (program α).Exclusive { s.goto t c with owner := o }) : Inv { s.goto t c with owner := o } := by
  obtain ⟨hclosing, hne, hnw, hcredit⟩ := hq
  refine h.update (x := s.shared) hex rfl (Or.inl rfl) hclosing ?_ (Or.inr ⟨hnw, by rw [hcredit]⟩)
  rintro (hc | hc)
  · exact absurd hc hne
  · rw [hnw] at hc
    cases hc

theorem inv_call (h : Inv s) (ht : s.pc t = .idle) (op : Op α) : Inv (s.goto t (enter op)) := by
  refine h.quiet (ht ▸ quiet_enter op) (h.exclusive.keep ?_ s.shared)
  rw [ht]
  cases op <;> rfl

theorem inv_acquire (h : Inv s) (hs : (program α).acquireStep s t = some s') : Inv s' := by
  have hex := h.exclusive.acquireStep hs
  obtain ⟨c, _, hc, rfl⟩ := Program.acquireStep_some hs
  exact h.quiet (quiet_acquire hc) hex

theorem inv_release (h : Inv s) (hs : (program α).releaseStep s t = some s') : Inv s' := by
  have hex := h.exclusive.releaseStep hs
  obtain ⟨c, hc, rfl⟩ := Program.releaseStep_some hs
  rcases quiet_release hc with ⟨hp, rfl⟩ | hq
  · have hr := h.wait t hp
    apply h.update (x := s.shared) hex rfl (Or.inl rfl) (by rw [hp]; rfl) (fun _ => hr)
    exact Or.inl (by rw [(ready_eq_false.mp hr).1]; rfl)
  · exact h.quiet hq hex

theorem inv_take (h : Inv s) (hh : (s.pc t).holds = true) (hcl : (s.pc t).isClosing = false)
    (hcr : (s.pc t).isCredit.toNat ≤ 1)
    (hex : (program α).Exclusive { s.goto t (take s.shared).2 with shared := (take s.shared).1 }) :
    Inv { s.goto t (take s.shared).2 with shared := (take s.shared).1 } := by
  cases hq : s.shared.queue with
  | nil =>
    have htake : take s.shared = (s.shared, .unlock none) := by simp [take, hq]
    rw [htake] at hex ⊢
    exact h.update (x := s.shared) hex rfl (Or.inl rfl) hcl.symm (by simp [Pc.isWaiting])
      (Or.inl (by rw [hq]; rfl))
  | cons item queue =>
    have htake : take s.shared =
        ({ s.shared with queue, popped := s.shared.popped ++ [item] }, .unlock (some item)) := by simp [take, hq]
    rw [htake] at hex ⊢
    refine h.update hex rfl (Or.inr hh) hcl.symm (by simp [Pc.isWaiting]) (Or.inr ⟨rfl, ?_⟩)
    show queue.length + (s.pc t).isCredit.toNat ≤ s.shared.queue.length + 0
    rw [hq, List.length_cons]
    omega

theorem inv_close (h : Inv s) (ht : s.pc t = .closeSet) : Inv { s.goto t .closeUnlock with
    shared := { s.shared with closed := true } } where
  exclusive := h.exclusive.keep (by rw [ht]; rfl) _
  wait := by
    intro u hu
    change Function.update s.pc t .closeUnlock u = .popWait at hu
    by_cases hut : u = t
    · rw [hut, Function.update_self] at hu
      cases hu
    · rw [Function.update_of_ne hut] at hu
      exact absurd (h.exclusive.eq (by rw [hu]; rfl) (by rw [ht]; rfl)) hut
  closing := fun _ _ => rfl
  wake := by intro hc; cases hc
  notify := fun _ _ => count_pos.mpr ⟨t, by
    show (Function.update s.pc t .closeUnlock t).isClosing = true
    rw [Function.update_self]
    rfl⟩

theorem inv_inside (h : Inv s) (hs : (program α).insideStep s t = some s') : Inv s' := by
  have hex := h.exclusive.insideStep hs
  obtain ⟨x, c, hc, rfl⟩ := Program.insideStep_some hs
  change inside s.shared (s.pc t) = some (x, c) at hc
  cases hp : s.pc t with
  | pushCheck item =>
    rw [hp] at hc
    obtain ⟨rfl, rfl⟩ := Prod.mk.inj (Option.some.inj hc)
    refine h.quiet ?_ hex
    rw [hp]
    split <;> exact ⟨rfl, by simp, rfl, rfl⟩
  | pushEnqueue item =>
    rw [hp] at hc
    obtain ⟨rfl, rfl⟩ := Prod.mk.inj (Option.some.inj hc)
    refine h.update hex rfl (Or.inr (by rw [hp]; rfl)) (by rw [hp]; rfl) (by simp [Pc.isWaiting])
      (Or.inr ⟨rfl, ?_⟩)
    rw [hp, List.length_append, List.length_singleton]
    exact Nat.le_refl _
  | popCheck woken =>
    rw [hp] at hc
    obtain ⟨rfl, rfl⟩ := Prod.mk.inj (Option.some.inj hc)
    cases hr : ready s.shared with
    | true =>
      simp only [hr, if_true] at hex ⊢
      refine h.quiet ?_ hex
      rw [hp]
      cases woken <;> exact ⟨rfl, by simp, rfl, rfl⟩
    | false =>
      simp only [hr, Bool.false_eq_true, if_false] at hex ⊢
      apply h.update (x := s.shared) hex rfl (Or.inl rfl) (by rw [hp]; rfl) (fun _ => hr)
      exact Or.inl (by rw [(ready_eq_false.mp hr).1]; rfl)
  | popTake woken =>
    rw [hp] at hc
    obtain ⟨rfl, rfl⟩ := Prod.mk.inj (Option.some.inj hc)
    exact inv_take h (by rw [hp]; rfl) (by rw [hp]; rfl) (Bool.toNat_le _) hex
  | tryPopTake =>
    rw [hp] at hc
    obtain ⟨rfl, rfl⟩ := Prod.mk.inj (Option.some.inj hc)
    exact inv_take h (by rw [hp]; rfl) (by rw [hp]; rfl) (Bool.toNat_le _) hex
  | closeSet =>
    rw [hp] at hc
    obtain ⟨rfl, rfl⟩ := Prod.mk.inj (Option.some.inj hc)
    exact inv_close h hp
  | _ => rw [hp] at hc; cases hc

theorem inv_spurious {w : T} (h : Inv s) (hw : (s.pc w).isWaiting = true) : Inv (s.goto w .woken) := by
  have hp : s.pc w = .waiting := by
    cases hp : s.pc w <;> rw [hp] at hw <;> first | rfl | cases hw
  refine h.update (o := s.owner) (h.exclusive.keep (by rw [hp]; rfl) s.shared) rfl (Or.inl rfl) (by rw [hp]; rfl)
    (by simp [Pc.isWaiting]) (Or.inr ⟨rfl, ?_⟩)
  rw [hp]
  exact Nat.le_succ _

theorem Inv.notified (h : Inv s) {pc : T → Pc α} (ht : (s.pc t).holds = false)
    (hpc : ∀ u, pc u = s.pc u ∨ (s.pc u).isWaiting = true ∧ pc u = .woken)
    (hwake : s.shared.closed = false → Covered Pc.isWaiting Pc.isCredit s.shared.queue.length
      (Function.update pc t .idle))
    (hnotify : s.shared.closed = true → Covered Pc.isWaiting Pc.isClosing 1 (Function.update pc t .idle)) :
    Inv { s with pc := Function.update pc t .idle } := by
  have hother : ∀ u, Function.update pc t .idle u = s.pc u ∨ (s.pc u).holds = false ∧
      (Function.update pc t .idle u = .idle ∨ Function.update pc t .idle u = .woken) := by
    intro u
    by_cases hut : u = t
    · rw [hut, Function.update_self]
      exact Or.inr ⟨ht, Or.inl rfl⟩
    · rw [Function.update_of_ne hut]
      refine (hpc u).imp_right fun ⟨hw, he⟩ => ⟨?_, Or.inr he⟩
      cases hp : s.pc u <;> rw [hp] at hw <;> first | rfl | cases hw
  exact {
    exclusive := by
      refine h.exclusive.congr rfl fun u => ?_
      rcases hother u with he | ⟨hh, he | he⟩
      · exact congrArg Pc.holds he
      · exact (congrArg Pc.holds he).trans hh.symm
      · exact (congrArg Pc.holds he).trans hh.symm
    wait := by
      intro u hu
      change Function.update pc t .idle u = .popWait at hu
      rcases hother u with he | ⟨_, he | he⟩
      · exact h.wait u (he.symm.trans hu)
      · rw [he] at hu; cases hu
      · rw [he] at hu; cases hu
    closing := by
      intro u hu
      change (Function.update pc t .idle u).isClosing = true at hu
      rcases hother u with he | ⟨_, he | he⟩
      · exact h.closing u (he ▸ hu)
      · rw [he] at hu; cases hu
      · rw [he] at hu; cases hu
    wake := hwake
    notify := hnotify }

theorem inv_notifyOne (h : Inv s) (ht : s.pc t = .pushNotify) {w : Option T} {pc : T → Pc α}
    (hn : notifyOne Pc.isWaiting wake s.pc w = some pc) : Inv { s with pc := Function.update pc t .idle } := by
  have hcredit : ∀ c : Pc α, c.isWaiting = true → (wake c).isWaiting = false ∧ c.isCredit = false ∧
    (wake c).isCredit = true := by
    intro c hc
    cases c <;> first | exact ⟨rfl, rfl, rfl⟩ | cases hc
  have hclosing : ∀ c : Pc α, c.isWaiting = true → (wake c).isWaiting = false ∧
    (wake c).isClosing = c.isClosing := by
    intro c hc
    cases c <;> first | exact ⟨rfl, rfl⟩ | cases hc
  have hpc := notifyOne_woken hn
  have hpt : pc t = .pushNotify := by
    rcases hpc t with he | ⟨hw, _⟩
    · exact he.trans ht
    · rw [ht] at hw
      cases hw
  refine h.notified (by rw [ht]; rfl) hpc ?_ ?_
  · intro hc
    apply (h.wake hc).notifyOne hn hcredit (by rw [ht]; rfl) rfl
    rw [ht]
    exact Nat.le_refl _
  · intro hc
    refine ((h.notify hc).notifyOther hn hclosing).update (Or.inr ⟨rfl, Or.inr ?_⟩)
    rw [hpt]
    exact Nat.le_refl _

theorem inv_notifyAll (h : Inv s) (ht : s.pc t = .closeNotify) :
    Inv { s with pc := Function.update (notifyAll Pc.isWaiting wake s.pc) t .idle } := by
  have hnone : count Pc.isWaiting (Function.update (notifyAll Pc.isWaiting wake s.pc) t .idle) = 0 :=
    count_notifyAll (fun _ => rfl) s.pc rfl
  apply h.notified (by rw [ht]; rfl)
  · exact notifyAll_woken Pc.isWaiting wake s.pc
  · exact fun _ hw => absurd hnone (Nat.ne_of_gt hw)
  · exact fun _ hw => absurd hnone (Nat.ne_of_gt hw)

theorem inv_step {a : Act T α} (h : Inv s) (hs : step s a = some s') : Inv s' := by
  cases a with
  | call t op =>
    unfold step at hs
    cases hp : s.pc t with
    | idle =>
      simp only [hp, Option.some.injEq] at hs
      exact hs ▸ inv_call h hp op
    | _ => simp only [hp, reduceCtorEq] at hs
  | acquire t => exact inv_acquire h hs
  | release t => exact inv_release h hs
  | inside t => exact inv_inside h hs
  | notifyOne t w =>
    unfold step at hs
    cases hp : s.pc t with
    | pushNotify =>
      simp only [hp, Option.map_eq_some_iff] at hs
      obtain ⟨pc, hn, rfl⟩ := hs
      exact inv_notifyOne h hp hn
    | _ => simp only [hp, reduceCtorEq] at hs
  | notifyAll t =>
    unfold step at hs
    cases hp : s.pc t with
    | closeNotify =>
      simp only [hp, Option.some.injEq] at hs
      exact hs ▸ inv_notifyAll h hp
    | _ => simp only [hp, reduceCtorEq] at hs
  | spurious w =>
    simp only [step, Option.ite_none_right_eq_some, Option.some.injEq] at hs
    obtain ⟨hw, rfl⟩ := hs
    exact inv_spurious h hw

theorem inv_reachable (h : (threadSafeQueue T α).Reachable s) : Inv s :=
  h.inv inv_init fun _ _ _ hi hs => inv_step hi hs

end

/-! ## Nobody sleeps through an item -/

/-- The steps of threads inside a call, by their own doing. -/
def Act.isProgress : Act T α → Bool
  | .call _ _ | .spurious _ => false
  | _ => true

structure NoLostWakeup (s : State T α) : Prop where
  covered : s.shared.closed = false → (∃ t, s.pc t = .waiting) →
    s.shared.queue.length ≤ count Pc.isEnqueued s.pc + count Pc.isWoken s.pc + count Pc.isTaking s.pc
  -- a woken consumer past its recheck holds the mutex, so there is one at most
  taking : ∀ t, (s.pc t).isTaking = true → s.owner = some t
  covered_unowned : s.shared.closed = false → (∃ t, s.pc t = .waiting) → s.owner = none →
    s.shared.queue.length ≤ count Pc.isEnqueued s.pc + count Pc.isWoken s.pc
  closed : s.shared.closed = true → (∃ t, s.pc t = .waiting) → ∃ t, (s.pc t).isClosing = true
  progress : (∃ t, s.pc t = .waiting) → s.shared.queue ≠ [] ∨ s.shared.closed = true →
    ∃ a s', a.isProgress = true ∧ step s a = some s'

variable {s : State T α}

theorem step_of_program (h : Inv s) {t : T} (ht : (acquire (s.pc t)).isSome ∨ (s.pc t).holds = true) :
    ∃ a s', a.isProgress = true ∧ step s a = some s' := by
  obtain ⟨u, s', hs | hs | hs⟩ := h.exclusive.progress ht
  · exact ⟨.acquire u, s', rfl, hs⟩
  · exact ⟨.release u, s', rfl, hs⟩
  · exact ⟨.inside u, s', rfl, hs⟩

theorem Inv.progress (h : Inv s) (hw : ∃ t, s.pc t = .waiting) (hq : s.shared.queue ≠ [] ∨ s.shared.closed = true) :
    ∃ a s', a.isProgress = true ∧ step s a = some s' := by
  obtain ⟨w, hw⟩ := hw
  have hpos : 0 < count Pc.isWaiting s.pc := count_pos.mpr ⟨w, by rw [hw]; rfl⟩
  cases hc : s.shared.closed with
  | true =>
    obtain ⟨t, ht⟩ := count_pos.mp (h.notify hc hpos)
    cases hp : s.pc t with
    | closeUnlock => exact step_of_program h (t := t) (Or.inr (by rw [hp]; rfl))
    | closeNotify => exact ⟨.notifyAll t, _, rfl, by simp only [step, hp]; rfl⟩
    | _ => rw [hp] at ht; cases ht
  | false =>
    have hne : s.shared.queue ≠ [] := hq.resolve_right (by rw [hc]; exact Bool.false_ne_true)
    have hlen := List.length_pos_iff.mpr hne
    obtain ⟨t, ht⟩ := count_pos.mp (Nat.lt_of_lt_of_le hlen (h.wake hc hpos))
    cases hp : s.pc t with
    | pushUnlock => exact step_of_program h (t := t) (Or.inr (by rw [hp]; rfl))
    | pushNotify =>
      refine ⟨.notifyOne t (some w), (s.goto w .woken).goto t .idle, rfl, ?_⟩
      simp only [step, hp, notifyOne, hw]
      rfl
    | woken => exact step_of_program h (t := t) (Or.inl (by rw [hp]; rfl))
    | popCheck _ => exact step_of_program h (t := t) (Or.inr (by rw [hp]; rfl))
    | popTake _ => exact step_of_program h (t := t) (Or.inr (by rw [hp]; rfl))
    | _ => rw [hp] at ht; cases ht

/-- **No lost wakeup**, for any threads and any interleaving. -/
theorem noLostWakeup_reachable (s : State T α) (h : (threadSafeQueue T α).Reachable s) : NoLostWakeup s := by
  have hi := inv_reachable h
  have hcount : (∃ t, s.pc t = .waiting) → 0 < count Pc.isWaiting s.pc := by
    intro ⟨t, ht⟩
    exact count_pos.mpr ⟨t, by rw [ht]; rfl⟩
  have htaking : ∀ t, (s.pc t).isTaking = true → s.owner = some t := by
    intro t ht
    apply (hi.exclusive t).mpr
    cases hp : s.pc t with
    | popTake _ => rfl
    | _ => rw [hp] at ht; cases ht
  have hcovered : s.shared.closed = false → (∃ t, s.pc t = .waiting) →
      s.shared.queue.length ≤ count Pc.isEnqueued s.pc + count Pc.isWoken s.pc + count Pc.isTaking s.pc := by
    intro hc hw
    rw [← count_isCredit]
    exact hi.wake hc (hcount hw)
  exact {
    covered := hcovered
    taking := htaking
    covered_unowned := by
      intro hc hw ho
      have hnone : count Pc.isTaking s.pc = 0 := by
        apply count_eq_zero.mpr
        intro t
        cases ht : (s.pc t).isTaking with
        | false => rfl
        | true =>
          have := htaking t ht
          rw [ho] at this
          cases this
      have := hcovered hc hw
      omega
    closed := fun hc hw => count_pos.mp (hi.notify hc (hcount hw))
    progress := hi.progress }

end

/-- Two consumers wait, an item is pushed, and one of them is woken and finds the predicate true. -/
def wokenOne {T : Type} (a b c : T) : List (Act T Nat) :=
  [.call a .pop, .acquire a, .inside a, .release a, .call b .pop, .acquire b, .inside b, .release b,
    .call c (.push 7), .acquire c, .inside c, .inside c, .release c, .notifyOne c (some a), .acquire a, .inside a]

theorem noLostWakeup_wokenOne :
    ∃ s, (threadSafeQueue (Fin 3) Nat).run (threadSafeQueue (Fin 3) Nat).init (wokenOne 0 1 2) = some s ∧
    s.pc 0 = .popTake true ∧ NoLostWakeup s :=
  ⟨_, rfl, rfl, noLostWakeup_reachable _ (System.reachable_of_run (wokenOne 0 1 2) .init rfl)⟩

/-- Between its recheck and its dequeue the woken consumer is none of those that have not yet
rechecked, while its item is still queued and the other consumer waits. -/
theorem recheck_before_take : ∃ s, (threadSafeQueue (Fin 3) Nat).Reachable s ∧ s.shared.closed = false ∧
    s.pc 1 = .waiting ∧ ¬ s.shared.queue.length ≤ count Pc.isEnqueued s.pc + count Pc.isWoken s.pc :=
  ⟨_, System.reachable_of_run (wokenOne 0 1 2) .init rfl, rfl, rfl, by decide⟩

end Playground.ThreadSafeQueue
