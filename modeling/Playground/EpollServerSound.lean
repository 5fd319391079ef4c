import Playground.EpollServer

/-!
# Data that gets stuck in the epoll server

A client with unread bytes and a clear readiness flag is heard of only if it
has been reported and its turn comes. A turn reads once, so it leaves the rest
of a longer message behind, and the edge is gone.
-/

namespace Playground.EpollServer

/-- No client's data is stuck: who has unread bytes will be reported, or has been and is still to be handled. -/
def Drained (s : State) : Prop :=
  ∀ fd c, s.clients fd = some c → c.received ≠ [] → c.ready = true ∨ .client fd ∈ s.pending

/-- The turn of a client finds no more bytes than one `read` takes, or new ones have set its flag again. -/
def Drains (s : State) : Act → Prop
  | .read => ∀ fd rest c, s.pc = .handling (.client fd) rest → s.clients fd = some c →
      c.received.length ≤ 511 ∨ c.ready = true
  | _ => True

/-- An event is pending once at most, and a connection comes to `accept` with its flag set for what it
has received. -/
structure Inv (s : State) : Prop where
  nodup : s.pending.Nodup
  backlog : ∀ c ∈ s.backlog, c.received ≠ [] → c.ready = true

variable {s s' : State} {act : Act}

theorem pending_of_pc {events : List Event} (h : s.pc = .ofEvents events) : s.pending = events := by
  unfold State.pending
  rw [h]
  cases events <;> rfl

theorem mem_pending {events : List Event} {event : Event} (h : s.pc = .ofEvents events) :
    event ∈ s.pending ↔ event ∈ events := by
  rw [pending_of_pc h]

theorem pending_waiting (h : s.pc = .waiting) : s.pending = [] := by
  simp [State.pending, h]

theorem pending_handling {event : Event} {rest : List Event} (h : s.pc = .handling event rest) :
    s.pending = event :: rest := by
  simp [State.pending, h]

/-! ## Steps -/

/-- What a step does. -/
inductive Step (s : State) : Act → State → Prop
  | connect : Step s .connect { s with backlog := s.backlog ++ [{}] }
  | arrive {p : Place} {bytes : Bytes} {c : Conn} (hc : c.ready = true) : Step s (.arrive p bytes) (s.setConn c p)
  | hangUp {p : Place} {c : Conn} (hc : c.ready = true) : Step s (.hangUp p) (s.setConn c p)
  | epollWait {event : Event} {rest : List Event} (hpc : s.pc = .waiting) (hnodup : (event :: rest).Nodup) :
      Step s (.epollWait event rest) (s.report (event :: rest))
  | leave (hpc : s.pc = .waiting) : Step s .leave { s with pc := .done }
  | refuse {rest : List Event} (hpc : s.pc = .handling .server rest) :
      Step s (.accept none) { s with pc := .ofEvents rest }
  | accept {rest : List Event} {fd : Nat} {c : Conn} {backlog : List Conn} (hpc : s.pc = .handling .server rest)
      (hb : s.backlog = c :: backlog) : Step s (.accept (some fd))
        { s with pc := .ofEvents rest, backlog, clients := Function.update s.clients fd (some c) }
  | read {rest : List Event} {fd : Nat} {c : Conn} (hpc : s.pc = .handling (.client fd) rest)
      (hc : s.clients fd = some c) :
      Step s .read (State.read { s with pc := .ofEvents rest, handled := s.handled + 1 } fd c)
  | closed {rest : List Event} {fd : Nat} (hpc : s.pc = .handling (.client fd) rest) (hc : s.clients fd = none) :
      Step s .read { s with pc := .ofEvents rest, handled := s.handled + 1 }

theorem step_cases (hs : step s act = some s') : Step s act s' := by
  cases act with
  | connect =>
    cases hs
    exact .connect
  | arrive p bytes =>
    unfold step at hs
    cases hc : s.conn p with
    | none => simp [hc] at hs
    | some c =>
      simp only [hc, Option.ite_none_left_eq_some, Option.some.injEq] at hs
      exact hs.2 ▸ .arrive rfl
  | hangUp p =>
    obtain ⟨c, hc, rfl⟩ := Option.map_eq_some_iff.mp hs
    exact .hangUp rfl
  | epollWait event rest =>
    simp only [step, Option.ite_none_right_eq_some, Option.some.injEq] at hs
    obtain ⟨⟨hpc, _, _, hnodup, _⟩, rfl⟩ := hs
    exact .epollWait hpc hnodup
  | leave =>
    simp only [step, Option.ite_none_right_eq_some, Option.some.injEq] at hs
    exact hs.2 ▸ .leave hs.1
  | accept fd =>
    unfold step at hs
    cases hpc : s.pc with
    | handling event rest =>
      cases event with
      | client fd' => simp [hpc] at hs
      | server =>
        cases fd with
        | none =>
          simp only [hpc, Option.some.injEq] at hs
          exact hs ▸ .refuse hpc
        | some fd =>
          cases hb : s.backlog with
          | nil => simp [hpc, hb] at hs
          | cons c backlog =>
            cases hc : s.clients fd with
            | some c' => simp [hpc, hb, hc] at hs
            | none =>
              simp only [hpc, hb, hc, Option.some.injEq] at hs
              exact hs ▸ .accept hpc hb
    | _ => simp [hpc] at hs
  | read =>
    unfold step at hs
    cases hpc : s.pc with
    | handling event rest =>
      cases event with
      | server => simp [hpc] at hs
      | client fd =>
        cases hc : s.clients fd with
        | none =>
          simp only [hpc, hc, Option.some.injEq] at hs
          exact hs ▸ .closed hpc hc
        | some c =>
          simp only [hpc, hc, Option.some.injEq] at hs
          exact hs ▸ .read hpc hc
    | _ => simp [hpc] at hs

@[simp] theorem read_pending (s : State) (fd : Nat) (c : Conn) : (s.read fd c).pending = s.pending := by
  unfold State.read
  split <;> rfl

@[simp] theorem read_backlog (s : State) (fd : Nat) (c : Conn) : (s.read fd c).backlog = s.backlog := by
  unfold State.read
  split <;> rfl

@[simp] theorem setConn_pending (s : State) (c : Conn) (p : Place) : (s.setConn c p).pending = s.pending := by
  cases p <;> rfl

/-! ## The invariant -/

theorem inv_init : Inv {} := ⟨.nil, fun _ h => by cases h⟩

theorem Inv.setConn (h : Inv s) {c : Conn} (hc : c.ready = true) (p : Place) : Inv (s.setConn c p) := by
  refine ⟨by simpa using h.nodup, fun c' hc' hr => ?_⟩
  cases p with
  | client fd => exact h.backlog c' hc' hr
  | backlog i =>
    rcases List.mem_or_eq_of_mem_set hc' with hm | rfl
    · exact h.backlog c' hm hr
    · exact hc

theorem Inv.next (h : Inv s) {event : Event} {rest : List Event} (hpc : s.pc = .handling event rest)
    (hpc' : s'.pc = .ofEvents rest) : s'.pending.Nodup := by
  have hnodup := h.nodup
  rw [pending_handling hpc] at hnodup
  rw [pending_of_pc hpc']
  exact hnodup.of_cons

theorem inv_step (h : Inv s) (hs : step s act = some s') : Inv s' := by
  cases step_cases hs with
  | connect =>
    refine ⟨h.nodup, fun c hc hr => ?_⟩
    rcases List.mem_append.mp hc with hm | hm
    · exact h.backlog c hm hr
    · rw [List.mem_singleton.mp hm] at hr
      exact absurd rfl hr
  | arrive hc => exact h.setConn hc _
  | hangUp hc => exact h.setConn hc _
  | epollWait hpc hnodup => exact ⟨hnodup, h.backlog⟩
  | leave hpc => exact ⟨.nil, h.backlog⟩
  | refuse hpc => exact ⟨h.next hpc rfl, h.backlog⟩
  | accept hpc hb =>
    refine ⟨h.next hpc rfl, fun c hc => h.backlog c ?_⟩
    rw [hb]
    exact List.mem_cons_of_mem _ hc
  | read hpc hc =>
    refine ⟨?_, by simpa using h.backlog⟩
    rw [read_pending]
    exact h.next hpc rfl
  | closed hpc hc => exact ⟨h.next hpc rfl, h.backlog⟩

/-! ## Stuck data -/

theorem Drained.setConn (h : Drained s) {c : Conn} (hc : c.ready = true) (p : Place) : Drained (s.setConn c p) := by
  intro fd c' hc' hr
  rw [setConn_pending]
  cases p with
  | backlog i => exact h fd c' hc' hr
  | client fd' =>
    change Function.update s.clients fd' (some c) fd = some c' at hc'
    by_cases hfd : fd = fd'
    · rw [hfd, Function.update_self, Option.some.injEq] at hc'
      exact Or.inl (hc' ▸ hc)
    · rw [Function.update_of_ne hfd] at hc'
      exact h fd c' hc' hr

theorem Drained.report (h : Drained s) (hpc : s.pc = .waiting) (events : List Event) :
    Drained (s.report events) := by
  intro fd c hc hr
  obtain ⟨c₀, hc₀, rfl⟩ := Option.map_eq_some_iff.mp hc
  by_cases hm : .client fd ∈ events
  · exact Or.inr ((mem_pending rfl).mpr hm)
  · have hready := h fd c₀ hc₀ hr
    rw [pending_waiting hpc] at hready
    simp [hready.resolve_right List.not_mem_nil, hm]

/-- The event that is handled is no longer pending, but only its own client needs it. -/
theorem Drained.next (h : Drained s) {event : Event} {rest : List Event} (hpc : s.pc = .handling event rest)
    (hpc' : s'.pc = .ofEvents rest) {fd : Nat} {c : Conn} (hc : s.clients fd = some c) (hr : c.received ≠ [])
    (hne : event ≠ .client fd) : c.ready = true ∨ .client fd ∈ s'.pending := by
  have hready := h fd c hc hr
  rw [pending_handling hpc, List.mem_cons] at hready
  rcases hready with hready | hm | hm
  · exact Or.inl hready
  · exact absurd hm.symm hne
  · exact Or.inr ((mem_pending hpc').mpr hm)

theorem drained_read (hi : Inv s) (h : Drained s) {fd : Nat} {rest : List Event} {c : Conn}
    (hpc : s.pc = .handling (.client fd) rest) (hc : s.clients fd = some c) :
    Drained (State.read { s with pc := .ofEvents rest, handled := s.handled + 1 } fd c) ↔
      c.received.length ≤ 511 ∨ c.ready = true := by
  have hlast : .client fd ∉ rest := by
    have hnodup := hi.nodup
    rw [pending_handling hpc] at hnodup
    exact (List.nodup_cons.mp hnodup).1
  constructor
  · intro hd
    by_contra hn
    obtain ⟨hlen, hready⟩ := not_or.mp hn
    have hne : ¬ c.received.isEmpty := by
      intro he
      rw [List.isEmpty_iff.mp he, List.length_nil] at hlen
      omega
    have hleft : c.received.drop 511 ≠ [] := by
      intro he
      have hle := List.drop_eq_nil_iff.mp he
      omega
    have hstuck := hd fd { c with received := c.received.drop 511 } (by simp [State.read, hne]) hleft
    rw [read_pending] at hstuck
    exact hstuck.elim hready fun hm => hlast ((mem_pending rfl).mp hm)
  · intro hok fd' c' hc' hr
    rw [read_pending]
    unfold State.read at hc'
    by_cases hfd : fd' = fd
    · subst hfd
      split at hc'
      · simp at hc'
      · simp only [Function.update_self, Option.some.injEq] at hc'
        subst hc'
        refine Or.inl (hok.resolve_left fun hlen => hr ?_)
        exact List.drop_eq_nil_of_le hlen
    · have hother : s.clients fd' = some c' := by
        split at hc'
        · simpa [Function.update_of_ne hfd] using hc'
        · simpa [Function.update_of_ne hfd] using hc'
      exact h.next hpc rfl hother hr fun he => hfd (Event.client.inj he).symm

theorem drained_step (hi : Inv s) (h : Drained s) (hs : step s act = some s') : Drained s' ↔ Drains s act := by
  cases step_cases hs with
  | connect => exact iff_of_true h trivial
  | arrive hc => exact iff_of_true (h.setConn hc _) trivial
  | hangUp hc => exact iff_of_true (h.setConn hc _) trivial
  | epollWait hpc hnodup => exact iff_of_true (h.report hpc _) trivial
  | leave hpc =>
    refine iff_of_true (fun fd c hc hr => ?_) trivial
    have hready := h fd c hc hr
    rw [pending_waiting hpc] at hready
    exact Or.inl (hready.resolve_right List.not_mem_nil)
  | refuse hpc =>
    exact iff_of_true (fun fd c hc hr => h.next hpc rfl hc hr Event.noConfusion) trivial
  | @accept rest fd c backlog hpc hb =>
    refine iff_of_true (fun fd' c' hc' hr => ?_) trivial
    by_cases hfd : fd' = fd
    · subst hfd
      simp only [Function.update_self, Option.some.injEq] at hc'
      subst hc'
      exact Or.inl (hi.backlog c (by rw [hb]; exact List.mem_cons_self) hr)
    · simp only [Function.update_of_ne hfd] at hc'
      exact h.next hpc rfl hc' hr Event.noConfusion
  | @read rest fd c hpc hc =>
    rw [drained_read hi h hpc hc]
    constructor
    · intro hok fd' rest' c' hpc' hc'
      rw [hpc] at hpc'
      cases hpc'
      rw [hc] at hc'
      cases hc'
      exact hok
    · intro hok
      exact hok fd rest c hpc hc
  | @closed rest fd hpc hc =>
    refine iff_of_true (fun fd' c' hc' hr => ?_) fun fd' rest' c' hpc' hc' => ?_
    · refine h.next hpc rfl hc' hr fun he => ?_
      cases he
      rw [hc] at hc'
      cases hc'
    · rw [hpc] at hpc'
      cases hpc'
      rw [hc] at hc'
      cases hc'

theorem drains_of_none (hs : step s act = none) : Drains s act := by
  cases act with
  | read =>
    intro fd rest c hpc hc
    simp [step, hpc, hc] at hs
  | _ => trivial

/-- **When no client's data gets stuck**: in every run in which each turn of a client finds what one
`read` takes, or has been announced again, and in no other. Then, whenever the events of an
`epoll_wait` have been handled, no open client has unread bytes while its flag is clear. -/
theorem drained_iff (acts : List Act) :
    (server.Along Drained acts ↔ server.Guarded Drains acts) ∧
      (server.Guarded Drains acts → server.Along
        (fun s => s.pending = [] → ∀ fd c, s.clients fd = some c → c.received ≠ [] → c.ready = true) acts) := by
  have hiff : server.Along Drained acts ↔ server.Guarded Drains acts :=
    System.alongFrom_iff (I := Inv) (fun _ _ _ hi hs => inv_step hi hs) (fun _ _ _ hi h hs => drained_step hi h hs)
      (fun _ _ hs => drains_of_none hs) acts inv_init fun fd c hc => by cases hc
  refine ⟨hiff, fun hg => System.AlongFrom.mono (fun s h hp fd c hc hr => ?_) (hiff.mpr hg)⟩
  have hready := h fd c hc hr
  rw [hp] at hready
  exact hready.resolve_right List.not_mem_nil

/-- A client is accepted and sends a message. -/
def oneMessage (bytes : Bytes) : List Act :=
  [.connect, .epollWait .server [], .accept (some 5), .arrive (.client 5) bytes, .epollWait (.client 5) [], .read]

theorem oneMessage_run {bytes : Bytes} (h : bytes ≠ []) :
    ∃ s c, server.run server.init (oneMessage bytes) = some s ∧
    s.pending = [] ∧ s.clients 5 = some c ∧ c.received = bytes.drop 511 ∧ c.ready = false := by
  simp [oneMessage, System.run, server, step, State.conn, State.setConn, State.isReady, State.report, State.read,
    Pc.ofEvents, MAX_EVENTS, State.pending, h]

/-- Of 512 bytes the last is stuck: the event has been handled, and nothing announces what is left. -/
theorem byte_stuck : ¬ ∀ (acts : List Act) (s : State), server.run server.init acts = some s → s.pending = [] →
    ∀ fd c, s.clients fd = some c → c.received ≠ [] → c.ready = true := by
  intro h
  have hne : List.replicate 512 (0 : UInt8) ≠ [] := List.cons_ne_nil _ _
  obtain ⟨s, c, hrun, hp, hc, hleft, hready⟩ := oneMessage_run hne
  have hreceived : c.received ≠ [] := by
    rw [hleft, List.drop_replicate]
    exact List.cons_ne_nil _ _
  have hset := h _ s hrun hp 5 c hc hreceived
  rw [hready] at hset
  cases hset

end Playground.EpollServer
