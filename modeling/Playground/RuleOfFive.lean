import Playground.Lib.Handles
import Playground.Lib.Machine

/-!
# Deep copies and moves (`Buffer` of `modern_cpp/rule_of_five.cpp`)

Objects with a pointer to an array of their own, over a heap. `new` may fail,
and an address that was freed may be handed out again. To free an address that
is not in use, to read or write through a pointer that is null or was freed and
to go beyond the array have no meaning (`none`).
-/

namespace Playground.RuleOfFive

open Handles

/-- The members; a null pointer is `none`. -/
structure Buffer where
  size : Nat
  data : Option Nat
  deriving DecidableEq

abbrev Heap := Nat → Option (List Int)

def Heap.live (heap : Heap) (a : Nat) : Bool := (heap a).isSome

structure State (N : Type) where
  objects : N → Option Buffer
  heap : Heap

inductive Op (N : Type)
  | construct (n : N) (size : Nat)
  | copyConstruct (n other : N)
  | moveConstruct (n other : N)
  | copyAssign (n other : N)
  | moveAssign (n other : N)
  | write (n : N) (idx : Nat) (x : Int)
  | read (n : N) (idx : Nat)
  | size (n : N)
  | destroy (n : N)

inductive Out
  | done
  | threw
  | value (x : Int)
  | size (size : Nat)
  deriving DecidableEq

/-- `delete[]` -/
def Heap.delete (heap : Heap) : Option Nat → Option Heap
  | none => some heap
  | some a =>
    match heap a with
    | some _ => some (Function.update heap a none)
    | none => none

/-- The elements that `std::copy` reads. -/
def Heap.elements (heap : Heap) (b : Buffer) : Option (List Int) :=
  match b.data with
  | none => if b.size = 0 then some [] else none
  | some a => (heap a).bind fun l => if b.size ≤ l.length then some (l.take b.size) else none

section
variable {N : Type} [DecidableEq N]

def State.construct (new : Source Nat Nat) (s : State N) (n : N) (size : Nat) : Option (State N × Out) :=
  match s.objects n with
  | some _ => none
  | none =>
    match new.pick s.heap.live size with
    | none => some (s, .threw)
    | some a => some (⟨Function.update s.objects n (some ⟨size, some a⟩),
        Function.update s.heap a (some (List.replicate size 0))⟩, .done)

/-- The copy constructor; `none` in the second place is the exception of `new`. -/
def Heap.copy (new : Source Nat Nat) (heap : Heap) (other : Buffer) : Option (Option (Buffer × Heap)) :=
  match new.pick heap.live other.size with
  | none => some none
  | some a => (heap.elements other).map fun l => some (⟨other.size, some a⟩, Function.update heap a (some l))

def State.copyConstruct (new : Source Nat Nat) (s : State N) (n other : N) : Option (State N × Out) :=
  match s.objects n, s.objects other with
  | none, some b => (s.heap.copy new b).map fun
    | none => (s, .threw)
    | some (c, heap) => (⟨Function.update s.objects n (some c), heap⟩, .done)
  | _, _ => none

/-- The copy is swapped with the object, and destroys the old array. -/
def State.copyAssign (new : Source Nat Nat) (s : State N) (n other : N) : Option (State N × Out) :=
  match s.objects n, s.objects other with
  | some b, some c =>
    if n = other then some (s, .done)
    else
      match s.heap.copy new c with
      | none => none
      | some none => some (s, .threw)
      | some (some (tmp, heap)) =>
        (heap.delete b.data).map fun heap => (⟨Function.update s.objects n (some tmp), heap⟩, .done)
  | _, _ => none

def State.moveConstruct (s : State N) (n other : N) : Option (State N × Out) :=
  match s.objects n, s.objects other with
  | none, some b =>
    some (⟨Function.update (Function.update s.objects n (some b)) other (some ⟨0, none⟩), s.heap⟩, .done)
  | _, _ => none

def State.moveAssign (s : State N) (n other : N) : Option (State N × Out) :=
  match s.objects n, s.objects other with
  | some b, some c =>
    if n = other then some (s, .done)
    else (s.heap.delete b.data).map fun heap =>
      (⟨Function.update (Function.update s.objects n (some c)) other (some ⟨0, none⟩), heap⟩, .done)
  | _, _ => none

/-- The address and the array that `operator[]` reaches. -/
def State.at? (s : State N) (n : N) (idx : Nat) : Option (Nat × List Int) := do
  let b ← s.objects n
  let a ← b.data
  let l ← s.heap a
  if idx < l.length then some (a, l) else none

def State.destroy (s : State N) (n : N) : Option (State N × Out) :=
  match s.objects n with
  | some b => (s.heap.delete b.data).map fun heap => (⟨Function.update s.objects n none, heap⟩, .done)
  | none => none

def step (new : Source Nat Nat) (s : State N) : Op N → Option (State N × Out)
  | .construct n size => s.construct new n size
  | .copyConstruct n other => s.copyConstruct new n other
  | .moveConstruct n other => s.moveConstruct n other
  | .copyAssign n other => s.copyAssign new n other
  | .moveAssign n other => s.moveAssign n other
  | .write n idx x => (s.at? n idx).map fun p =>
    (⟨s.objects, Function.update s.heap p.1 (some (p.2.set idx x))⟩, .done)
  | .read n idx => (s.at? n idx).bind fun p => (p.2[idx]?).map fun x => (s, .value x)
  | .size n => (s.objects n).map fun b => (s, .size b.size)
  | .destroy n => s.destroy n

def buffers (new : Source Nat Nat) : Machine (State N) (Op N) Out where
  init := ⟨fun _ => none, fun _ => none⟩
  step := step new

/-! ## Values -/

/-- The purpose of the class: an object is a list of numbers, and shares nothing with the others. -/
abbrev Values (N : Type) := N → Option (List Int)

/-- A use of objects that exist, and elements that exist. -/
def Legal (v : Values N) : Op N → Prop
  | .construct n _ => v n = none
  | .copyConstruct n other | .moveConstruct n other => v n = none ∧ ∃ l, v other = some l
  | .copyAssign n other | .moveAssign n other => (∃ l, v n = some l) ∧ ∃ l, v other = some l
  | .write n idx _ | .read n idx => ∃ l, v n = some l ∧ idx < l.length
  | .size n | .destroy n => ∃ l, v n = some l

/-- An operation that throws changes nothing; an object that was moved from is empty. -/
def Values.apply (v : Values N) : Op N → Out → Values N
  | _, .threw => v
  | .construct n size, _ => Function.update v n (some (List.replicate size 0))
  | .copyConstruct n other, _ | .copyAssign n other, _ => Function.update v n (v other)
  | .moveConstruct n other, _ => Function.update (Function.update v n (v other)) other (some [])
  | .moveAssign n other, _ =>
    if n = other then v else Function.update (Function.update v n (v other)) other (some [])
  | .write n idx x, _ => Function.update v n ((v n).map fun l => l.set idx x)
  | .read _ _, _ | .size _, _ => v
  | .destroy n, _ => Function.update v n none

/-- Only what allocates may throw, and never when it copies to itself. -/
def Values.Gives (v : Values N) : Op N → Out → Prop
  | .construct _ _, out | .copyConstruct _ _, out => out = .done ∨ out = .threw
  | .copyAssign n other, out => out = .done ∨ out = .threw ∧ n ≠ other
  | .read n idx, out => ∃ l x, v n = some l ∧ l[idx]? = some x ∧ out = .value x
  | .size n, out => ∃ l, v n = some l ∧ out = .size l.length
  | .moveConstruct _ _, out | .moveAssign _ _, out | .write _ _ _, out | .destroy _, out => out = .done

def Values.Explains (v : Values N) : List (Op N × Out) → Prop
  | [] => True
  | (op, out) :: rest => v.Gives op out ∧ (v.apply op out).Explains rest

def Values.replay (v : Values N) (trace : List (Op N × Out)) : Values N :=
  trace.foldl (fun v p => v.apply p.1 p.2) v

def Heap.contents (heap : Heap) (b : Buffer) : List Int :=
  match b.data with
  | none => []
  | some a => (heap a).getD []

def State.values (s : State N) : Values N := fun n => (s.objects n).map s.heap.contents

def State.holds (s : State N) (n : N) : Option Nat := (s.objects n).bind Buffer.data

end

end Playground.RuleOfFive
