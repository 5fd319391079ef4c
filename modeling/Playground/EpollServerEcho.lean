import Playground.EpollServerSound
import Playground.Lib.Streams

/-!
# What the epoll server echoes

An observer beside the server notes which connection has which descriptor:
the kernel hands a closed descriptor out again, and an event carries nothing
but the descriptor. The echo is right if what each connection is sent back is
what it sent, in its order, and nobody else's.
-/

namespace Playground.EpollServer

/-- What the observer knows. The connections are numbered from the first: those that wait in the
backlog, in its order, and the owner of each descriptor, now and when `epoll_wait` last returned. -/
structure Notes where
  connections : Nat := 0
  waiting : List Nat := []
  owner : Nat → Option Nat := fun _ => none
  reported : Nat → Option Nat := fun _ => none
  sent : Nat → Bytes := fun _ => []
  answered : Nat → Bytes := fun _ => []

def Notes.occupant (n : Notes) : Place → Option Nat
  | .backlog i => n.waiting[i]?
  | .client fd => n.owner fd

/-- The bytes go to the end of the log of their connection. -/
def record (k : Option Nat) (bytes : Bytes) (log : Nat → Bytes) : Nat → Bytes :=
  match k with
  | some k => Function.update log k (log k ++ bytes)
  | none => log

/-- What a step from `s` to `s'` tells: who sent what, whom `s'` has accepted or let go, and whom the
bytes that it has written went to. -/
def Notes.next (s : State) (n : Notes) (act : Act) (s' : State) : Notes :=
  match act with
  | .connect => { n with connections := n.connections + 1, waiting := n.waiting ++ [n.connections] }
  | .arrive p bytes => { n with sent := record (n.occupant p) bytes n.sent }
  | .epollWait _ _ => { n with reported := n.owner }
  | .accept (some fd) =>
    { n with waiting := n.waiting.tail, owner := Function.update n.owner fd n.waiting.head? }
  | .read =>
    { n with
      owner := fun fd => (s'.clients fd).bind fun _ => n.owner fd
      answered := (s'.echoed.drop s.echoed.length).foldl (fun log w => record (n.owner w.1) w.2 log) n.answered }
  | _ => n

def observed : System (State × Notes) Act := server.withHistory {} Notes.next

/-- The connection at a place, and what has not been read of what it sent. -/
def held (s : State) (n : Notes) (p : Place) : Option (Nat × Bytes) :=
  (n.occupant p).bind fun k => (s.conn p).map fun c => (k, c.received)

/-- Every place in use has a connection of its own, whose bytes are all accounted for; an event that is
still to be handled was reported for the connection that has the descriptor. -/
structure Echoing (s : State) (n : Notes) : Prop where
  nodup : s.pending.Nodup
  waiting : n.waiting.length = s.backlog.length
  owner : ∀ fd, (n.owner fd).isSome = (s.clients fd).isSome
  fresh : ∀ p k, n.occupant p = some k → k < n.connections
  balanced : Streams.Balanced (held s n) n.sent n.answered
  current : ∀ fd, .client fd ∈ s.pending → (s.clients fd).isSome ∧ n.reported fd = n.owner fd
  bounded : s.handled + s.pending.length ≤ 68

variable {s s' : State} {n : Notes} {act : Act}

/-! ## Steps -/

theorem arrive_cases {p : Place} {bytes : Bytes} (hs : step s (.arrive p bytes) = some s') :
    ∃ c, s.conn p = some c ∧ s' = s.setConn { c with received := c.received ++ bytes, ready := true } p := by
  unfold step at hs
  cases hc : s.conn p with
  | none => simp [hc] at hs
  | some c =>
    simp only [hc, Option.ite_none_left_eq_some, Option.some.injEq] at hs
    exact ⟨c, rfl, hs.2.symm⟩

theorem hangUp_cases {p : Place} (hs : step s (.hangUp p) = some s') :
    ∃ c, s.conn p = some c ∧ s' = s.setConn { c with ended := true, ready := true } p := by
  obtain ⟨c, hc, rfl⟩ := Option.map_eq_some_iff.mp hs
  exact ⟨c, hc, rfl⟩

theorem epollWait_cases {event : Event} {rest : List Event} (hs : step s (.epollWait event rest) = some s') :
    s.handled < 5 ∧ rest.length < MAX_EVENTS ∧ ∀ e ∈ event :: rest, s.isReady e = true := by
  simp only [step, Option.ite_none_right_eq_some] at hs
  obtain ⟨⟨_, hh, hl, _, hr⟩, _⟩ := hs
  exact ⟨hh, hl, List.all_eq_true.mp hr⟩

theorem accept_free {fd : Nat} (hs : step s (.accept (some fd)) = some s') : s.clients fd = none := by
  by_contra hne
  obtain ⟨c, hc⟩ := Option.ne_none_iff_exists'.mp hne
  simp only [step, hc] at hs
  split at hs
  · cases hb : s.backlog <;> simp [hb] at hs
  · cases hs

/-! ## What is held -/

theorem conn_setConn {p : Place} {c₀ c : Conn} (h : s.conn p = some c₀) :
    (s.setConn c p).conn = Function.update s.conn p (some c) := by
  funext q
  cases p with
  | client fd =>
    cases q with
    | backlog i => rw [Function.update_of_ne Place.noConfusion]; rfl
    | client fd' => simp [State.conn, State.setConn, Function.update_apply]
  | backlog i =>
    cases q with
    | client fd => rw [Function.update_of_ne Place.noConfusion]; rfl
    | backlog j =>
      have hi : i < s.backlog.length := (List.getElem?_eq_some_iff.mp h).1
      by_cases hij : j = i
      · subst hij
        simp [State.conn, State.setConn, hi]
      · rw [Function.update_of_ne fun he => hij (Place.backlog.inj he)]
        exact List.getElem?_set_ne (Ne.symm hij)

theorem isSome_setConn {p : Place} {c₀ c : Conn} (h : s.conn p = some c₀) (q : Place) :
    ((s.setConn c p).conn q).isSome = (s.conn q).isSome := by
  rw [conn_setConn h]
  by_cases hq : q = p
  · rw [hq, Function.update_self, h, Option.isSome_some, Option.isSome_some]
  · rw [Function.update_of_ne hq]

theorem held_of {p : Place} {k : Nat} {c : Conn} (hk : n.occupant p = some k) (hc : s.conn p = some c) :
    held s n p = some (k, c.received) := by
  simp [held, hk, hc]

theorem held_congr (h : ∀ p, (s'.conn p).map Conn.received = (s.conn p).map Conn.received) :
    held s' n = held s n := by
  funext p
  have hmap :
    ∀ t : State, held t n p = (n.occupant p).bind fun k => ((t.conn p).map Conn.received).map (Prod.mk k) :=
    fun t => by simp [held, Function.comp_def]
  rw [hmap, hmap, h]

theorem Echoing.same (h : Echoing s n) (p : Place) : (n.occupant p).isSome = (s.conn p).isSome := by
  cases p with
  | client fd => exact h.owner fd
  | backlog i => rw [Notes.occupant, State.conn, Bool.eq_iff_iff, isSome_getElem?, isSome_getElem?, h.waiting]

/-- The place of a connection is held by it. -/
theorem Echoing.held_eq (h : Echoing s n) {p : Place} {c : Conn} (hc : s.conn p = some c) :
    ∃ k, n.occupant p = some k ∧ held s n p = some (k, c.received) := by
  have hk : (n.occupant p).isSome := by rw [h.same, hc, Option.isSome_some]
  obtain ⟨k, hk⟩ := Option.isSome_iff_exists.mp hk
  exact ⟨k, hk, held_of hk hc⟩

theorem Echoing.held_occupant (h : Echoing s n) {p : Place} {k : Nat} (hk : n.occupant p = some k) :
    ∃ bs, held s n p = some (k, bs) := by
  have hc : (s.conn p).isSome := by rw [← h.same, hk, Option.isSome_some]
  obtain ⟨c, hc⟩ := Option.isSome_iff_exists.mp hc
  exact ⟨c.received, held_of hk hc⟩

theorem held_setConn {p : Place} {c₀ c : Conn} {k : Nat} (hc : s.conn p = some c₀) (hk : n.occupant p = some k) :
    held (s.setConn c p) n = Function.update (held s n) p (some (k, c.received)) := by
  funext q
  unfold held
  rw [conn_setConn hc]
  by_cases hq : q = p
  · subst hq
    simp [hk]
  · simp [Function.update_of_ne hq]

theorem conn_report (s : State) (events : List Event) (p : Place) :
    ((s.report events).conn p).map Conn.received = (s.conn p).map Conn.received := by
  cases p with
  | backlog i => rfl
  | client fd => simp [State.conn, State.report, Function.comp_def]

theorem held_connect (h : Echoing s n) : held { s with backlog := s.backlog ++ [{}] } (n.next s .connect s') =
    Function.update (held s n) (.backlog s.backlog.length) (some (n.connections, [])) := by
  funext p
  cases p with
  | client fd => rw [Function.update_of_ne Place.noConfusion]; rfl
  | backlog i =>
    rcases Nat.lt_trichotomy i s.backlog.length with hi | hi | hi
    · rw [Function.update_of_ne fun he => Nat.ne_of_lt hi (Place.backlog.inj he)]
      have hi' : i < n.waiting.length := h.waiting ▸ hi
      simp [held, Notes.next, Notes.occupant, State.conn, List.getElem?_append_left, hi, hi']
    · subst hi
      rw [Function.update_self, ← h.waiting]
      simp [held, Notes.next, Notes.occupant, State.conn, h.waiting]
    · rw [Function.update_of_ne fun he => Nat.ne_of_gt hi (Place.backlog.inj he)]
      have hnone : n.waiting[i]? = none := List.getElem?_eq_none (h.waiting ▸ Nat.le_of_lt hi)
      have hnone' : (n.waiting ++ [n.connections])[i]? = none :=
        List.getElem?_eq_none (by rw [List.length_append, h.waiting]; exact hi)
      simp only [held, Notes.next, Notes.occupant, hnone, hnone', Option.bind_none]

/-- Where the connection at a place was before the first of the backlog was accepted. -/
def origin (fd : Nat) : Place → Place
  | .backlog i => .backlog (i + 1)
  | .client fd' => if fd' = fd then .backlog 0 else .client fd'

theorem origin_injective (fd : Nat) : (origin fd).Injective := by
  intro p q h
  cases p <;> cases q <;> grind [origin]

theorem conn_accept (fd : Nat) {c : Conn} {backlog : List Conn} (hb : s.backlog = c :: backlog) (pc : Pc)
    (p : Place) :
    State.conn { s with pc, backlog, clients := Function.update s.clients fd (some c) } p =
      s.conn (origin fd p) := by
  cases p with
  | backlog i => simp [State.conn, origin, hb]
  | client fd' =>
    by_cases hfd : fd' = fd
    · subst hfd
      simp [State.conn, origin, hb]
    · simp [State.conn, origin, hfd]

theorem occupant_accept (fd : Nat) (p : Place) :
    (n.next s (.accept (some fd)) s').occupant p = n.occupant (origin fd p) := by
  cases p with
  | backlog i => simp [Notes.next, Notes.occupant, origin]
  | client fd' =>
    by_cases hfd : fd' = fd
    · subst hfd
      simp [Notes.next, Notes.occupant, origin, List.head?_eq_getElem?]
    · simp [Notes.next, Notes.occupant, origin, hfd]

theorem clients_read {fd fd' : Nat} {c : Conn} (hfd : fd' ≠ fd) : (s.read fd c).clients fd' = s.clients fd' := by
  unfold State.read
  split <;> exact Function.update_of_ne hfd _ _

theorem held_read {fd k : Nat} {c : Conn} (hc : s.clients fd = some c) (hk : n.owner fd = some k) :
    held (s.read fd c) (n.next s .read (s.read fd c)) = Function.update (held s n) (.client fd)
      (if c.received.isEmpty then none else some (k, c.received.drop 511)) := by
  funext p
  cases p with
  | backlog i =>
    rw [Function.update_of_ne Place.noConfusion]
    simp [held, Notes.next, Notes.occupant, State.conn]
  | client fd' =>
    by_cases hfd : fd' = fd
    · subst hfd
      by_cases he : c.received.isEmpty <;> simp [held, Notes.next, Notes.occupant, State.conn, State.read, he, hk]
    · rw [Function.update_of_ne fun he => hfd (Place.client.inj he)]
      cases hc' : s.clients fd' <;> simp [held, Notes.next, Notes.occupant, State.conn, clients_read hfd, hc']

theorem answered_read {fd k : Nat} {c : Conn} (hk : n.owner fd = some k) :
    (n.next s .read (s.read fd c)).answered = if c.received.isEmpty then n.answered else
      Function.update n.answered k (n.answered k ++ c.received.take 511) := by
  by_cases he : c.received.isEmpty <;> simp [Notes.next, State.read, record, he, hk]

theorem balanced_read (hb : Streams.Balanced (held s n) n.sent n.answered) {fd k : Nat} {c : Conn}
    (hc : s.clients fd = some c) (hk : n.owner fd = some k) :
    Streams.Balanced (held (s.read fd c) (n.next s .read (s.read fd c))) n.sent
      (n.next s .read (s.read fd c)).answered := by
  have hheld : held s n (.client fd) = some (k, c.received) := held_of hk hc
  rw [held_read hc hk, answered_read hk]
  by_cases he : c.received.isEmpty
  · rw [List.isEmpty_iff.mp he] at hheld
    rw [if_pos he, if_pos he]
    exact hb.finish hheld
  · rw [← List.take_append_drop 511 c.received] at hheld
    rw [if_neg he, if_neg he]
    exact hb.answer hheld

/-! ## The invariant -/

theorem echoing_init : Echoing {} {} where
  nodup := .nil
  waiting := rfl
  owner _ := rfl
  fresh p k hk := by
    cases p with
    | backlog i => cases hk
    | client fd => cases hk
  balanced := by
    have hheld : held {} {} = fun _ => none := funext fun p => by cases p <;> rfl
    exact hheld ▸ Streams.balanced_empty
  current fd h := by cases h
  bounded := Nat.zero_le _

/-- What is known of the events that are left once the first is handled. -/
theorem Echoing.rest (h : Echoing s n) {event : Event} {rest : List Event} (hpc : s.pc = .handling event rest) :
    event ∉ rest ∧ rest.Nodup ∧ s.handled + (rest.length + 1) ≤ 68 ∧
      ∀ fd, .client fd ∈ rest → (s.clients fd).isSome ∧ n.reported fd = n.owner fd := by
  have hp := pending_handling hpc
  have hnodup := h.nodup
  have hbounded := h.bounded
  rw [hp] at hnodup hbounded
  exact ⟨(List.nodup_cons.mp hnodup).1, hnodup.of_cons, hbounded,
    fun fd hm => h.current fd (hp ▸ List.mem_cons_of_mem _ hm)⟩

theorem Echoing.setConn (h : Echoing s n) {p : Place} {c₀ c : Conn} (hc : s.conn p = some c₀) {sent : Nat → Bytes}
    (hb : Streams.Balanced (held (s.setConn c p) n) sent n.answered) :
    Echoing (s.setConn c p) { n with sent } where
  nodup := by simpa using h.nodup
  waiting := by cases p <;> simp [State.setConn, h.waiting]
  owner fd := (h.owner fd).trans (isSome_setConn hc (.client fd)).symm
  fresh := h.fresh
  balanced := hb
  current fd hm := by
    rw [setConn_pending] at hm
    obtain ⟨hopen, heq⟩ := h.current fd hm
    exact ⟨(isSome_setConn hc (.client fd)).trans hopen, heq⟩
  bounded := by cases p <;> exact h.bounded

theorem occupant_of_held {p : Place} {k : Nat} {bs : Bytes} (h : held s n p = some (k, bs)) :
    n.occupant p = some k := by
  obtain ⟨k', hk', h⟩ := Option.bind_eq_some_iff.mp h
  obtain ⟨c, _, heq⟩ := Option.map_eq_some_iff.mp h
  cases heq
  exact hk'

theorem Echoing.connect (h : Echoing s n) :
    Echoing { s with backlog := s.backlog ++ [{}] } (n.next s .connect s') where
  nodup := h.nodup
  waiting := by simp [Notes.next, h.waiting]
  owner := h.owner
  fresh p k hk := by
    cases p with
    | client fd => exact Nat.lt_succ_of_lt (h.fresh (.client fd) k hk)
    | backlog i =>
      rcases List.mem_append.mp (List.mem_of_getElem? hk) with hm | hm
      · obtain ⟨j, hj⟩ := List.mem_iff_getElem?.mp hm
        exact Nat.lt_succ_of_lt (h.fresh (.backlog j) k hj)
      · rw [List.mem_singleton.mp hm]
        exact Nat.lt_succ_self _
  balanced := by
    rw [held_connect h]
    refine h.balanced.start ?_ fun q bs hq => ?_
    · have hnone : n.waiting[s.backlog.length]? = none := List.getElem?_eq_none (Nat.le_of_eq h.waiting)
      simp [held, Notes.occupant, hnone]
    · exact Nat.lt_irrefl _ (h.fresh q _ (occupant_of_held hq))
  current := h.current
  bounded := h.bounded

theorem Echoing.report (h : Echoing s n) {events : List Event} (hnodup : events.Nodup) (hh : s.handled < 5)
    (hl : events.length ≤ MAX_EVENTS) (hr : ∀ e ∈ events, s.isReady e = true) :
    Echoing (s.report events) { n with reported := n.owner } where
  nodup := by rwa [pending_of_pc rfl]
  waiting := h.waiting
  owner fd := by simp [State.report, h.owner]
  fresh := h.fresh
  balanced := by
    have hheld : held (s.report events) { n with reported := n.owner } = held s n :=
      held_congr (conn_report s events)
    exact hheld ▸ h.balanced
  current fd hm := by
    have hready := hr _ ((mem_pending rfl).mp hm)
    refine ⟨?_, rfl⟩
    cases hc : s.clients fd with
    | none => simp [State.isReady, hc] at hready
    | some c => simp [State.report, hc]
  bounded := by
    have hp : (s.report events).pending.length = events.length := by rw [pending_of_pc rfl]
    have hhandled : (s.report events).handled = s.handled := rfl
    rw [hp, hhandled]
    unfold MAX_EVENTS at hl
    omega

/-- The listening socket is dealt with, and nothing is accepted. -/
theorem Echoing.refuse (h : Echoing s n) {rest : List Event} (hpc : s.pc = .handling .server rest) :
    Echoing { s with pc := .ofEvents rest } n := by
  obtain ⟨_, hnodup, hbounded, hcurrent⟩ := h.rest hpc
  refine ⟨?_, h.waiting, h.owner, h.fresh, h.balanced, fun fd hm => hcurrent fd ((mem_pending rfl).mp hm), ?_⟩
  · rwa [pending_of_pc rfl]
  · rw [pending_of_pc rfl]
    exact Nat.le_of_succ_le hbounded

theorem Echoing.accept (h : Echoing s n) {rest : List Event} {fd : Nat} {c : Conn} {backlog : List Conn}
    (hpc : s.pc = .handling .server rest) (hb : s.backlog = c :: backlog) (hfree : s.clients fd = none) :
    Echoing { s with pc := .ofEvents rest, backlog, clients := Function.update s.clients fd (some c) }
      (n.next s (.accept (some fd)) s') := by
  obtain ⟨_, hnodup, hbounded, hcurrent⟩ := h.rest hpc
  have hconn := conn_accept fd hb (.ofEvents rest)
  refine ⟨?_, ?_, fun fd' => ?_, fun p k hk => ?_, ?_, fun fd' hm => ?_, ?_⟩
  · rwa [pending_of_pc rfl]
  · simp [Notes.next, h.waiting, hb]
  · have hsame := h.same (origin fd (.client fd'))
    rwa [← occupant_accept, ← hconn] at hsame
  · rw [occupant_accept] at hk
    exact h.fresh _ k hk
  · refine h.balanced.move (origin_injective fd) (fun p => ?_) fun p x hp => ?_
    · unfold held
      rw [occupant_accept, hconn]
    · cases p with
      | backlog i =>
        cases i with
        | zero => exact ⟨.client fd, by simp [origin]⟩
        | succ i => exact ⟨.backlog i, rfl⟩
      | client fd' =>
        refine ⟨.client fd', if_neg fun he => ?_⟩
        simp [held, State.conn, he, hfree] at hp
  · obtain ⟨hopen, heq⟩ := hcurrent fd' ((mem_pending rfl).mp hm)
    have hfd : fd' ≠ fd := by
      rintro rfl
      rw [hfree] at hopen
      cases hopen
    have hclient := congrArg Option.isSome (Function.update_of_ne hfd (some c) s.clients)
    exact ⟨hclient.trans hopen, heq.trans (Function.update_of_ne hfd _ _).symm⟩
  · rw [pending_of_pc rfl]
    exact Nat.le_of_succ_le hbounded

theorem Echoing.read (h : Echoing s n) {rest : List Event} {fd : Nat} {c : Conn}
    (hpc : s.pc = .handling (.client fd) rest) (hc : s.clients fd = some c) (hs' : s' =
      State.read { s with pc := .ofEvents rest, handled := s.handled + 1 } fd c) :
    Echoing s' (n.next s .read s') := by
  obtain ⟨hlast, hnodup, hbounded, hcurrent⟩ := h.rest hpc
  obtain ⟨k, hk, hheld⟩ := h.held_eq (p := .client fd) hc
  have hpending : s'.pending = rest := by rw [hs', read_pending, pending_of_pc rfl]
  have howner : ∀ fd', (s'.clients fd').isSome → (n.owner fd').isSome := by
    intro fd' ho
    by_cases hfd : fd' = fd
    · rw [hfd, show n.owner fd = some k from hk, Option.isSome_some]
    · rw [hs', clients_read hfd] at ho
      exact (h.owner fd').trans ho
  refine ⟨?_, ?_, fun fd' => ?_, fun p k' hk' => ?_, ?_, fun fd' hm => ?_, ?_⟩
  · rwa [hpending]
  · rw [hs', read_backlog]
    exact h.waiting
  · cases ho : s'.clients fd' with
    | none => simp [Notes.next, ho]
    | some c' => simpa [Notes.next, ho] using howner fd' (by simp [ho])
  · cases p with
    | backlog i => exact h.fresh (.backlog i) k' hk'
    | client fd' =>
      obtain ⟨c', _, hk'⟩ := Option.bind_eq_some_iff.mp hk'
      exact h.fresh (.client fd') k' hk'
  · subst hs'
    exact balanced_read (s := { s with pc := .ofEvents rest, handled := s.handled + 1 }) h.balanced hc hk
  · rw [hpending] at hm
    obtain ⟨hopen, heq⟩ := hcurrent fd' hm
    have hfd : fd' ≠ fd := by
      rintro rfl
      exact hlast hm
    have hclient : s'.clients fd' = s.clients fd' := by rw [hs', clients_read hfd]
    obtain ⟨c', hc'⟩ := Option.isSome_iff_exists.mp hopen
    refine ⟨hclient ▸ hopen, ?_⟩
    simp [Notes.next, hclient, hc', heq]
  · have hhandled : s'.handled = s.handled + 1 := by
      rw [hs']
      unfold State.read
      split <;> rfl
    rw [hpending, hhandled]
    omega

theorem echoing_step (h : Echoing s n) (hs : step s act = some s') : Echoing s' (n.next s act s') := by
  cases act with
  | arrive p bytes =>
    obtain ⟨c, hc, rfl⟩ := arrive_cases hs
    obtain ⟨k, hk, hheld⟩ := h.held_eq hc
    refine h.setConn hc ?_
    rw [held_setConn hc hk, hk]
    exact h.balanced.append hheld bytes
  | hangUp p =>
    obtain ⟨c, hc, rfl⟩ := hangUp_cases hs
    obtain ⟨k, hk, hheld⟩ := h.held_eq hc
    refine h.setConn hc ?_
    rw [held_setConn hc hk, ← hheld, Function.update_eq_self]
    exact h.balanced
  | epollWait event rest =>
    obtain ⟨hh, hl, hr⟩ := epollWait_cases hs
    cases step_cases hs with
    | epollWait hpc hnodup => exact h.report hnodup hh hl hr
  | accept fd =>
    cases step_cases hs with
    | refuse hpc => exact h.refuse hpc
    | accept hpc hb => exact h.accept hpc hb (accept_free hs)
  | connect =>
    cases step_cases hs
    exact h.connect
  | leave =>
    cases step_cases hs with
    | leave hpc =>
      have hbounded := h.bounded
      rw [pending_waiting hpc] at hbounded
      exact ⟨.nil, h.waiting, h.owner, h.fresh, h.balanced, fun fd hm => (List.not_mem_nil hm).elim, hbounded⟩
  | read =>
    cases step_cases hs with
    | read hpc hc => exact h.read hpc hc rfl
    | @closed rest fd hpc hc =>
      -- whose descriptor is still to be handled has not been closed
      have hopen := (h.current fd (by rw [pending_handling hpc]; exact List.mem_cons_self)).1
      rw [hc] at hopen
      cases hopen

theorem echoing_reachable {x : State × Notes} (h : observed.Reachable x) : Echoing x.1 x.2 :=
  h.inv (P := fun x => Echoing x.1 x.2) echoing_init fun x act y hx hs => by
    obtain ⟨hstep, hnotes⟩ := System.withHistory_step hs
    rw [hnotes]
    exact echoing_step hx hstep

/-- Every event that is still to be handled is of an open descriptor: the turn of a client that is
gone, which the model of `read` allows for, never comes. -/
theorem pending_open (h : server.Reachable s) {fd : Nat} (hm : .client fd ∈ s.pending) : (s.clients fd).isSome := by
  obtain ⟨n, hn⟩ : ∃ n, observed.Reachable (s, n) := h.withHistory
  exact ((echoing_reachable hn).current fd hm).1

/-- **The echo is faithful.** In every run, whatever the order of the arrivals, the events and the
descriptors that `accept` returns: what a connection has sent is what it has been answered, then what
has not been read yet, so nothing is dropped, repeated, reordered or sent to another; a connection that
is gone was answered all it had sent; no two places hold one connection; an event still to be handled
was reported for the connection that has the descriptor now; and 68 events of clients are
handled at most. -/
theorem echo_faithful {s : State} {n : Notes} (h : observed.Reachable (s, n)) :
    (∀ p k c, n.occupant p = some k → s.conn p = some c → n.sent k = n.answered k ++ c.received) ∧
      (∀ k, (∀ p, n.occupant p ≠ some k) → n.sent k = n.answered k) ∧
      (∀ p q k, n.occupant p = some k → n.occupant q = some k → p = q) ∧
      (∀ fd, .client fd ∈ s.pending →
        ∃ k c, s.clients fd = some c ∧ n.owner fd = some k ∧ n.reported fd = some k) ∧
      s.handled + s.pending.length ≤ 68 := by
  have he := echoing_reachable h
  refine ⟨fun p k c hk hc => ?_, fun k hk => ?_, fun p q k hp hq => ?_, fun fd hm => ?_, he.bounded⟩
  · exact he.balanced.balance (held_of hk hc)
  · exact he.balanced.settled fun p bs hp => hk p (occupant_of_held hp)
  · obtain ⟨_, hp⟩ := he.held_occupant hp
    obtain ⟨_, hq⟩ := he.held_occupant hq
    exact he.balanced.unique hp hq
  · obtain ⟨hopen, heq⟩ := he.current fd hm
    obtain ⟨c, hc⟩ := Option.isSome_iff_exists.mp hopen
    obtain ⟨k, hk⟩ := Option.isSome_iff_exists.mp ((he.owner fd).trans hopen)
    exact ⟨k, c, hc, hk, heq.trans hk⟩

/-- A client sends two bytes and hangs up; the next one, whose byte has come in before it is accepted,
gets the same descriptor. -/
def reuse : List Act :=
  [.connect, .epollWait .server [], .accept (some 5), .arrive (.client 5) [97, 98],
    .epollWait (.client 5) [], .read, .hangUp (.client 5), .connect, .arrive (.backlog 0) [99],
    .epollWait (.client 5) [.server], .read, .accept (some 5), .epollWait (.client 5) [], .read]

theorem echo_faithful_reuse : ∃ s n, observed.run observed.init reuse = some (s, n) ∧ n.owner 5 = some 1 ∧
    n.answered 0 = [97, 98] ∧ n.answered 1 = [99] ∧ s.clients 5 = some {} ∧ n.sent 1 = n.answered 1 ++ [] :=
  ⟨_, _, rfl, rfl, rfl, rfl, rfl,
    (echo_faithful (System.reachable_of_run reuse .init rfl)).1 (.client 5) 1 {} rfl rfl⟩

end Playground.EpollServer
