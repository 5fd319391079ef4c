import Mathlib.Algebra.GroupWithZero.Nat
import Mathlib.Logic.Function.Basic
import Playground.Lib.CInt
import Playground.Lib.Machine

/-!
# The event bus (`patterns/mediator.cpp`)

The services live as long as the bus, and are numbered in the order in which
they are constructed. Each counts what it does in one `int`. A handler may publish
while it runs: `publish` goes as deep as its first argument.
-/

namespace Playground.Mediator

def loginRequest : String := "user:login_request"

def authenticated : String := "user:authenticated"

def authFailed : String := "user:auth_failed"

/-- A method of one of the services. -/
inductive Handler
  | authenticate (service : Nat)
  | loggedIn (service : Nat)
  | failedLogin (service : Nat)
  | welcome (service : Nat)

structure Subscription where
  id : BitVec 64
  handler : Handler

/-- The bus, and what the services have counted and printed. -/
structure World where
  handlers : String → List Subscription := fun _ => []
  nextId : BitVec 64 := 0
  services : Nat := 0
  counts : Nat → Int := fun _ => 0
  output : List String := []

namespace World

def subscribe (w : World) (event : String) (handler : Handler) : World :=
  { w with
    handlers := Function.update w.handlers event (w.handlers event ++ [⟨w.nextId, handler⟩])
    nextId := w.nextId + 1 }

def unsubscribe (w : World) (id : BitVec 64) : World :=
  { w with handlers := fun event => (w.handlers event).filter fun s => s.id ≠ id }

def print (w : World) (line : String) : World := { w with output := w.output ++ [line] }

def bump (w : World) (service : Nat) : Option World := do
  let count ← CInt.fit (w.counts service + 1)
  some { w with counts := Function.update w.counts service count }

end World

def accepted (username : String) : Bool := username = "admin" || username = "alice"

/-! What the services print. -/

def authenticating (username : String) : String := "  [Auth] Authenticating: " ++ username

def userLoggedIn (user : String) : String := "  [Log] User logged in: " ++ user

def failedAttempt (user : String) : String := "  [Log] FAILED login attempt: " ++ user

def welcomeBack (user : String) : String := "  [Notify] Welcome back, " ++ user ++ "!"

def call (publish : World → String → String → Option World) (w : World) (data : String) : Handler → Option World
  | .authenticate service => do
    let w := w.print (authenticating data)
    if accepted data then
      let w ← publish w authenticated data
      w.bump service
    else publish w authFailed data
  | .loggedIn service => (w.print (userLoggedIn data)).bump service
  | .failedLogin service => (w.print (failedAttempt data)).bump service
  | .welcome service => (w.print (welcomeBack data)).bump service

def publish : Nat → World → String → String → Option World
  | 0, _, _, _ => none
  | depth + 1, w, event, data => (w.handlers event).foldlM (fun w s => call (publish depth) w data s.handler) w

inductive Kind
  | auth
  | logging
  | notification
  deriving DecidableEq

/-- The constructors of the services. -/
def construct (w : World) (kind : Kind) : World :=
  let service := w.services
  let w := { w with services := w.services + 1 }
  match kind with
  | .auth => w.subscribe loginRequest (.authenticate service)
  | .logging =>
    let w := w.subscribe authenticated (.loggedIn service)
    w.subscribe authFailed (.failedLogin service)
  | .notification => w.subscribe authenticated (.welcome service)

inductive Op
  | construct (kind : Kind)
  | unsubscribe (id : BitVec 64)
  | publish (event data : String)

def step (depth : Nat) (w : World) : Op → Option World
  | .construct kind => some (construct w kind)
  | .unsubscribe id => some (w.unsubscribe id)
  | .publish event data => publish depth w event data

def bus (depth : Nat) : Machine World Op Unit where
  init := {}
  step w op := (step depth w op).map fun w => (w, ())

/-! ## The same without a bus -/

/-- A service, and the subscriptions it still has. -/
structure Service where
  kind : Kind
  live : List (BitVec 64 × String)

def topics : Kind → List String
  | .auth => [loginRequest]
  | .logging => [authenticated, authFailed]
  | .notification => [authenticated]

def Service.to (s : Service) (event : String) : List (BitVec 64 × String) := s.live.filter fun p => p.2 = event

structure Direct where
  services : List Service := []
  nextId : BitVec 64 := 0
  counts : Nat → Nat := fun _ => 0
  output : List String := []

/-- What a service that is told of an event prints. -/
def line (kind : Kind) (event data : String) : String :=
  match kind with
  | .auth => authenticating data
  | .logging =>
    if event = authenticated then userLoggedIn data else failedAttempt data
  | .notification => welcomeBack data

def reply (username : String) : String := if accepted username then authenticated else authFailed

namespace Direct

variable (d : Direct)

/-- How often service `i` is told of an event. -/
def told (event : String) (i : Nat) : Nat := (d.services[i]?.elim [] fun s => s.to event).length

def lines (event data : String) : List String :=
  d.services.flatMap fun s => (s.to event).map fun _ => line s.kind event data

def attempts : Nat := (d.services.map fun s => (s.to loginRequest).length).sum

/-- Every service that is told of a login tells the others of what comes out. -/
def publish (event data : String) : Direct :=
  if event = loginRequest then
    { d with
      counts :=
        fun i => d.counts i + d.attempts * d.told (reply data) i + (if accepted data then d.told event i else 0)
      output := d.output ++
        (List.replicate d.attempts (line .auth event data :: d.lines (reply data) data)).flatten }
  else
    { d with
      counts := fun i => d.counts i + d.told event i
      output := d.output ++ d.lines event data }

def construct (kind : Kind) : Direct :=
  { d with
    services := d.services ++ [⟨kind, (topics kind).zipIdx.map fun p => (d.nextId + BitVec.ofNat 64 p.2, p.1)⟩]
    nextId := d.nextId + BitVec.ofNat 64 (topics kind).length }

def unsubscribe (id : BitVec 64) : Direct :=
  { d with services := d.services.map fun s => ⟨s.kind, s.live.filter fun p => p.1 ≠ id⟩ }

def step : Op → Direct
  | .construct kind => d.construct kind
  | .unsubscribe id => d.unsubscribe id
  | .publish event data => d.publish event data

end Direct

def direct : Spec Direct Op Unit where
  init := {}
  step d op := (d.step op, ())

end Playground.Mediator
