import Playground.Lib.Machine

/-!
# The command-pattern text editor (`patterns/command.cpp`)

Edits are commands that know how to execute and how to undo themselves. The
editor keeps the executed ones on one stack and the undone ones on another.
A string operation whose position lies past the end of the string throws; what
has happened to the editor by then stays.
-/

namespace Playground.CommandEditor

section
variable {α : Type}

/-! ## The document: `std::string` with its throwing positions -/

def substr (text : List α) (pos len : Nat) : Option (List α) :=
  if pos ≤ text.length then some ((text.drop pos).take len) else none

namespace TextDocument

def insert (text : List α) (pos : Nat) (s : List α) : Option (List α) :=
  if pos ≤ text.length then some (text.take pos ++ s ++ text.drop pos) else none

/-- Erases at most what there is after `pos`. -/
def erase (text : List α) (pos len : Nat) : Option (List α) :=
  if pos ≤ text.length then some (text.take pos ++ text.drop (pos + len)) else none

end TextDocument

/-! ## Commands -/

inductive Command (α : Type)
  | insertCommand (pos : Nat) (text : List α)
  | deleteCommand (pos len : Nat) (deleted : List α)
  deriving DecidableEq, Repr

/-- `execute`: the command, which may store what it deletes, and the document. -/
def Command.execute (doc : List α) : Command α → Option (Command α × List α)
  | .insertCommand pos text => do
    let doc ← TextDocument.insert doc pos text
    some (.insertCommand pos text, doc)
  | .deleteCommand pos len _ => do
    let deleted ← substr doc pos len
    let doc ← TextDocument.erase doc pos len
    some (.deleteCommand pos len deleted, doc)

def Command.undo (doc : List α) : Command α → Option (List α)
  | .insertCommand pos text => TextDocument.erase doc pos text.length
  | .deleteCommand pos _ deleted => TextDocument.insert doc pos deleted

/-! ## The editor -/

/-- The tops of the stacks are the heads of the lists. -/
structure TextEditor (α : Type) where
  doc : List α := []
  undoStack : List (Command α) := []
  redoStack : List (Command α) := []
  deriving DecidableEq, Repr

inductive Outcome
  | returned
  | thrown
  deriving DecidableEq, Repr

def executeCmd (e : TextEditor α) (cmd : Command α) : TextEditor α × Outcome :=
  match cmd.execute e.doc with
  | some (cmd, doc) => ({ doc, undoStack := cmd :: e.undoStack, redoStack := [] }, .returned)
  | none => (e, .thrown)

def insert (e : TextEditor α) (pos : Nat) (text : List α) : TextEditor α × Outcome :=
  executeCmd e (.insertCommand pos text)

def erase (e : TextEditor α) (pos len : Nat) : TextEditor α × Outcome := executeCmd e (.deleteCommand pos len [])

def undo (e : TextEditor α) : TextEditor α × Outcome :=
  match e.undoStack with
  | [] => (e, .returned)
  | cmd :: undoStack =>
    match cmd.undo e.doc with
    | some doc => ({ doc, undoStack, redoStack := cmd :: e.redoStack }, .returned)
    | none => ({ e with undoStack }, .thrown) -- `cmd` has been popped

def redo (e : TextEditor α) : TextEditor α × Outcome :=
  match e.redoStack with
  | [] => (e, .returned)
  | cmd :: redoStack =>
    match cmd.execute e.doc with
    | some (cmd, doc) => ({ doc, undoStack := cmd :: e.undoStack, redoStack }, .returned)
    | none => ({ e with redoStack }, .thrown)

inductive Call (α : Type)
  | insert (pos : Nat) (text : List α)
  | erase (pos len : Nat)
  | undo
  | redo
  deriving DecidableEq, Repr

def textEditor (α : Type) : Machine (TextEditor α) (Call α) Outcome where
  init := {}
  step e
    | .insert pos text => some (insert e pos text)
    | .erase pos len => some (erase e pos len)
    | .undo => some (undo e)
    | .redo => some (redo e)

end

end Playground.CommandEditor
