import Mathlib.Data.List.Nodup
import Mathlib.Logic.Function.Basic
import Playground.Lib.Ascii
import Playground.Lib.Transition

/-!
# The epoll server (`systems/networking/epoll_server.cpp`)

The event loop and the kernel under it. A connection is a receive buffer and
a readiness flag: bytes that arrive set the flag, and so does the end of the
stream; `epoll_wait` clears it when it reports the descriptor (edge-triggered).
The listening socket is level-triggered. What arrives, in what pieces, what
`epoll_wait` reports and which descriptors `accept` returns are left to the
labels of the steps.
-/

namespace Playground.EpollServer

def MAX_EVENTS : Nat := 64

/-- A connection in the kernel; `received` is what has not been read. -/
structure Conn where
  received : Bytes := []
  ended : Bool := false
  ready : Bool := false
  deriving DecidableEq, Repr

/-- `events[i].data.fd`. -/
inductive Event
  | server
  | client (fd : Nat)
  deriving DecidableEq, Repr

/-- Where `main` is: at the head of the `while` loop, in the `for` loop with
some events left, or past the loops. -/
inductive Pc
  | waiting
  | handling (event : Event) (rest : List Event)
  | done
  deriving DecidableEq, Repr

/-- `echoed` records what was written, and to which descriptor. -/
structure State where
  backlog : List Conn := []
  clients : Nat → Option Conn := fun _ => none
  pc : Pc := .waiting
  handled : Nat := 0
  echoed : List (Nat × Bytes) := []

/-- A connection: waiting to be accepted, or accepted. -/
inductive Place
  | backlog (i : Nat)
  | client (fd : Nat)
  deriving DecidableEq, Repr

/-- The steps; the first three are those of the peers. -/
inductive Act
  | connect
  | arrive (p : Place) (bytes : Bytes)
  | hangUp (p : Place)
  | epollWait (event : Event) (rest : List Event)
  | leave
  | accept (fd : Option Nat)
  | read
  deriving DecidableEq, Repr

def State.conn (s : State) : Place → Option Conn
  | .backlog i => s.backlog[i]?
  | .client fd => s.clients fd

def State.setConn (s : State) (c : Conn) : Place → State
  | .backlog i => { s with backlog := s.backlog.set i c }
  | .client fd => { s with clients := Function.update s.clients fd (some c) }

def State.pending (s : State) : List Event :=
  match s.pc with
  | .handling event rest => event :: rest
  | _ => []

def Pc.ofEvents : List Event → Pc
  | [] => .waiting
  | event :: rest => .handling event rest

/-- What `epoll_wait` may report. -/
def State.isReady (s : State) : Event → Bool
  | .server => !s.backlog.isEmpty
  | .client fd => (s.clients fd).any Conn.ready

def State.report (s : State) (events : List Event) : State :=
  { s with
    pc := .ofEvents events
    clients := fun fd => (s.clients fd).map fun c => { c with ready := c.ready && !events.contains (.client fd) } }

/-- `read` of at most 511 bytes, and what follows: at the end of the stream, or
when there is nothing to read, the connection is closed. -/
def State.read (s : State) (fd : Nat) (c : Conn) : State :=
  if c.received.isEmpty then { s with clients := Function.update s.clients fd none }
  else
    { s with
      clients := Function.update s.clients fd (some { c with received := c.received.drop 511 })
      echoed := s.echoed ++ [(fd, c.received.take 511)] }

def step (s : State) : Act → Option State
  | .connect => some { s with backlog := s.backlog ++ [{}] }
  | .arrive p bytes =>
    match s.conn p with
    | some c =>
      if bytes.isEmpty || c.ended then none
      else some (s.setConn { c with received := c.received ++ bytes, ready := true } p)
    | none => none
  | .hangUp p => (s.conn p).map fun c => s.setConn { c with ended := true, ready := true } p
  | .epollWait event rest =>
    if s.pc = .waiting ∧ s.handled < 5 ∧ rest.length < MAX_EVENTS ∧ (event :: rest).Nodup ∧
        (event :: rest).all s.isReady then
      some (s.report (event :: rest))
    else none
  | .leave => if s.pc = .waiting then some { s with pc := .done } else none
  | .accept fd =>
    match s.pc with
    | .handling .server rest =>
      match fd with
      | none => some { s with pc := .ofEvents rest } -- `if (client_fd < 0) continue;`
      | some fd =>
        match s.backlog, s.clients fd with
        | c :: backlog, none =>
          some { s with pc := .ofEvents rest, backlog, clients := Function.update s.clients fd (some c) }
        | _, _ => none
    | _ => none
  | .read =>
    match s.pc with
    | .handling (.client fd) rest =>
      let s := { s with pc := .ofEvents rest, handled := s.handled + 1 }
      match s.clients fd with
      | some c => some (s.read fd c)
      | none => some s
    | _ => none

def server : System State Act where
  init := {}
  step := step

end Playground.EpollServer
