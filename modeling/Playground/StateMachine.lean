import Mathlib.Algebra.Group.Nat.Even
import Mathlib.Data.List.DropRight

/-!
# The LED controller (`systems/embedded/state_machine.cpp`)

The controller looks each event up in a table. What it has printed is kept with
the hardware actions, of which the last one that is not `actionNone` says what
the LED does. The enumerators `COUNT` are not states or events.
-/

namespace Playground.StateMachine

inductive State
  | off
  | blinking
  | solid
  | error
  deriving DecidableEq

inductive Event
  | powerOn
  | powerOff
  | toggle
  | fault
  | reset
  deriving DecidableEq

def stateToString : State → String
  | .off => "Off"
  | .blinking => "Blinking"
  | .solid => "Solid"
  | .error => "Error"

def eventToString : Event → String
  | .powerOn => "PowerOn"
  | .powerOff => "PowerOff"
  | .toggle => "Toggle"
  | .fault => "Fault"
  | .reset => "Reset"

inductive Action
  | ledOn
  | ledOff
  | blink
  | alarm
  | none
  deriving DecidableEq

def Action.text : Action → List String
  | .ledOn => ["    [HW] LED ON"]
  | .ledOff => ["    [HW] LED OFF"]
  | .blink => ["    [HW] LED BLINK mode"]
  | .alarm => ["    [HW] ERROR: LED rapid flash!"]
  | .none => []

structure Transition where
  nextState : State
  action : Action

def table : State → Event → Transition
  | .off, .powerOn => ⟨.solid, .ledOn⟩
  | .off, .powerOff => ⟨.off, .none⟩
  | .off, .toggle => ⟨.blinking, .blink⟩
  | .off, .fault => ⟨.error, .alarm⟩
  | .off, .reset => ⟨.off, .none⟩
  | .blinking, .powerOn => ⟨.blinking, .none⟩
  | .blinking, .powerOff => ⟨.off, .ledOff⟩
  | .blinking, .toggle => ⟨.solid, .ledOn⟩
  | .blinking, .fault => ⟨.error, .alarm⟩
  | .blinking, .reset => ⟨.off, .ledOff⟩
  | .solid, .powerOn => ⟨.solid, .none⟩
  | .solid, .powerOff => ⟨.off, .ledOff⟩
  | .solid, .toggle => ⟨.blinking, .blink⟩
  | .solid, .fault => ⟨.error, .alarm⟩
  | .solid, .reset => ⟨.off, .ledOff⟩
  | .error, .powerOn => ⟨.error, .none⟩
  | .error, .powerOff => ⟨.off, .ledOff⟩
  | .error, .toggle => ⟨.error, .none⟩
  | .error, .fault => ⟨.error, .alarm⟩
  | .error, .reset => ⟨.off, .ledOff⟩

structure LEDController where
  currentState : State := .off
  actions : List Action := []
  output : List String := []

def LEDController.processEvent (c : LEDController) (event : Event) : LEDController :=
  let transition := table c.currentState event
  { currentState := transition.nextState
    actions := c.actions ++ [transition.action]
    output := c.output ++ ("  " ++ stateToString c.currentState ++ " + " ++ eventToString event ++ " → " ++
      stateToString transition.nextState) :: transition.action.text }

def processEvents (events : List Event) : LEDController := events.foldl LEDController.processEvent {}

/-! ## What the events say -/

def Event.clears : Event → Bool
  | .powerOff | .reset => true
  | .powerOn | .toggle | .fault => false

/-- The events since the last one that switches off. -/
def sinceOff (events : List Event) : List Event := events.rtakeWhile fun e => !e.clears

/-- What they make of a controller that is off. -/
def expected (events : List Event) : State :=
  if .fault ∈ events then .error
  else if events = [] then .off
  else if Even (events.count .toggle) then .solid
  else .blinking

/-- What the LED was last told to do. -/
def lit (actions : List Action) : Action := ((actions.filter (· ≠ .none)).getLast?).getD .ledOff

def shows : State → Action
  | .off => .ledOff
  | .blinking => .blink
  | .solid => .ledOn
  | .error => .alarm

theorem processEvents_snoc (events : List Event) (e : Event) :
    processEvents (events ++ [e]) = (processEvents events).processEvent e := by simp [processEvents]

theorem sinceOff_snoc (events : List Event) (e : Event) :
    sinceOff (events ++ [e]) = if e.clears then [] else sinceOff events ++ [e] := by
  rw [sinceOff, List.rtakeWhile_concat]
  cases e.clears <;> rfl

/-- One more event that does not switch off. -/
theorem expected_snoc (events : List Event) {e : Event} (h : e.clears = false) :
    expected (events ++ [e]) = (table (expected events) e).nextState := by
  unfold expected
  by_cases hf : .fault ∈ events
  · simp only [List.mem_append, hf, true_or, if_true]
    cases e <;> first | rfl | cases h
  · by_cases hnil : events = []
    · subst hnil
      cases e <;> first | rfl | cases h
    · cases e with
      | powerOff => cases h
      | reset => cases h
      | fault => by_cases he : Even (events.count .toggle) <;> simp [hf, hnil, he, table]
      | powerOn => by_cases he : Even (events.count .toggle) <;> simp [hf, hnil, he, table]
      | toggle => by_cases he : Even (events.count .toggle) <;> simp [hf, hnil, he, table, Nat.even_add_one]

theorem lit_snoc (actions : List Action) (a : Action) :
    lit (actions ++ [a]) = if a = .none then lit actions else a := by
  unfold lit
  by_cases ha : a = .none
  · simp [ha]
  · simp [ha, List.filter_append]

theorem table_shows (s : State) (e : Event) :
    (if (table s e).action = .none then shows s else (table s e).action) = shows (table s e).nextState := by
  cases s <;> cases e <;> rfl

/-- The state is that of the events since the controller was last switched off: an error if one of them is a fault,
and else by the number of toggles. The LED does what the state says. -/
theorem processEvents_state (events : List Event) :
    (processEvents events).currentState = expected (sinceOff events) ∧
      lit (processEvents events).actions = shows (processEvents events).currentState := by
  induction events using List.reverseRecOn with
  | nil => exact ⟨rfl, rfl⟩
  | append_singleton events e ih =>
    obtain ⟨hstate, hlit⟩ := ih
    rw [processEvents_snoc]
    refine ⟨?_, ?_⟩
    · rw [sinceOff_snoc]
      show (table (processEvents events).currentState e).nextState = _
      cases hc : e.clears with
      | false => rw [hstate, ← expected_snoc _ hc]; rfl
      | true =>
        generalize (processEvents events).currentState = s
        cases e <;> first | (cases s <;> rfl) | cases hc
    · show lit ((processEvents events).actions ++ [(table (processEvents events).currentState e).action]) = _
      rw [lit_snoc, hlit]
      exact table_shows _ e

end Playground.StateMachine
