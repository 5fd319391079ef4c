import Mathlib.Data.List.Induction
import Mathlib.Logic.Function.Iterate

/-!
# The memento editor (`patterns/memento.cpp`)

The originator saves its state into snapshots and restores itself from them;
the caretaker keeps the snapshots on two stacks. `undo` moves the newest
snapshot over to the redo stack and returns the one below it, or null when
there is none: the state before the first edit is in no snapshot.
-/

namespace Playground.Memento

section
variable {α : Type}

/-! ## Originator and caretaker -/

structure TextEditor (α : Type) where
  content : List α := []
  cursor : Int32 := 0
  deriving DecidableEq

structure ConcreteMemento (α : Type) where
  content : List α
  cursor : Int32
  deriving DecidableEq

inductive Edit (α : Type)
  | type (text : List α)
  | setCursor (pos : Int32)
  | clear
  deriving DecidableEq

def TextEditor.apply (e : TextEditor α) : Edit α → TextEditor α
  | .type text => { e with content := e.content ++ text }
  | .setCursor pos => { e with cursor := pos }
  | .clear => { content := [], cursor := 0 }

def TextEditor.save (e : TextEditor α) : ConcreteMemento α := ⟨e.content, e.cursor⟩

def TextEditor.restore (_ : TextEditor α) (m : ConcreteMemento α) : TextEditor α := ⟨m.content, m.cursor⟩

/-- The tops of the stacks are the heads of the lists. -/
structure History (α : Type) where
  undoStack : List (ConcreteMemento α) := []
  redoStack : List (ConcreteMemento α) := []
  deriving DecidableEq

def History.push (h : History α) (m : ConcreteMemento α) : History α := ⟨m :: h.undoStack, []⟩

def History.undo (h : History α) : History α × Option (ConcreteMemento α) :=
  match h.undoStack with
  | [] => (h, none)
  | m :: undoStack => (⟨undoStack, m :: h.redoStack⟩, undoStack.head?)

def History.redo (h : History α) : History α × Option (ConcreteMemento α) :=
  match h.redoStack with
  | [] => (h, none)
  | m :: redoStack => (⟨m :: h.undoStack, redoStack⟩, some m)

/-! ## The protocol -/

structure Session (α : Type) where
  editor : TextEditor α := {}
  history : History α := {}
  deriving DecidableEq

/-- An edit, then `history.push(editor.save())`. -/
def Session.edit (s : Session α) (e : Edit α) : Session α :=
  ⟨s.editor.apply e, s.history.push (s.editor.apply e).save⟩

/-- `if (auto* m = …) editor.restore(*m)`. -/
def TextEditor.restoreIf (e : TextEditor α) : Option (ConcreteMemento α) → TextEditor α
  | some m => e.restore m
  | none => e

def Session.undo (s : Session α) : Session α := ⟨s.editor.restoreIf s.history.undo.2, s.history.undo.1⟩

def Session.redo (s : Session α) : Session α := ⟨s.editor.restoreIf s.history.redo.2, s.history.redo.1⟩

def after (edits : List (Edit α)) : TextEditor α := edits.foldl TextEditor.apply {}

def session (edits : List (Edit α)) : Session α := edits.foldl Session.edit {}

/-! ## The stacks after some edits, undos and redos -/

theorem session_snoc (edits : List (Edit α)) (e : Edit α) : session (edits ++ [e]) = (session edits).edit e := by
  simp [session]

theorem after_snoc (edits : List (Edit α)) (e : Edit α) : after (edits ++ [e]) = (after edits).apply e := by
  simp [after]

theorem session_editor (edits : List (Edit α)) : (session edits).editor = after edits := by
  induction edits using List.reverseRecOn with
  | nil => rfl
  | append_singleton edits e ih => rw [session_snoc, after_snoc, Session.edit, ih]

theorem session_length (edits : List (Edit α)) : (session edits).history.undoStack.length = edits.length := by
  induction edits using List.reverseRecOn with
  | nil => rfl
  | append_singleton edits e ih => simp [session_snoc, Session.edit, History.push, ih]

/-- The `i`-th snapshot from the top is that of the state `i` edits ago. -/
theorem session_getElem? (edits : List (Edit α)) {i : Nat} (hi : i < edits.length) :
    (session edits).history.undoStack[i]? = some (after (edits.take (edits.length - i))).save := by
  induction edits using List.reverseRecOn generalizing i with
  | nil => exact absurd hi (Nat.not_lt_zero i)
  | append_singleton edits e ih =>
    rw [session_snoc, Session.edit, History.push]
    cases i with
    | zero =>
      rw [Nat.sub_zero, List.take_length, after_snoc, ← session_editor]
      rfl
    | succ i =>
      rw [List.length_append, List.length_singleton] at hi ⊢
      rw [List.getElem?_cons_succ, ih (Nat.lt_of_succ_lt_succ hi), Nat.add_sub_add_right,
        List.take_append_of_le_length (Nat.sub_le _ _)]

theorem reverse_take_succ (u : List (ConcreteMemento α)) {k : Nat} (hk : k < u.length) :
    (u.take (k + 1)).reverse = u[k] :: (u.take k).reverse := by
  rw [List.take_succ_eq_append_getElem hk, List.reverse_append]
  rfl

theorem history_undos (s : Session α) {k : Nat} (hk : k ≤ s.history.undoStack.length) :
    (Session.undo^[k] s).history =
      ⟨s.history.undoStack.drop k, (s.history.undoStack.take k).reverse ++ s.history.redoStack⟩ := by
  induction k with
  | zero => rfl
  | succ k ih =>
    have hlt : k < s.history.undoStack.length := hk
    rw [Function.iterate_succ_apply', Session.undo, ih (Nat.le_of_lt hlt), History.undo,
      List.drop_eq_getElem_cons hlt, reverse_take_succ _ hlt]
    rfl

theorem editor_undos (s : Session α) {k : Nat} (hk : k < s.history.undoStack.length) :
    (Session.undo^[k + 1] s).editor =
      (Session.undo^[k] s).editor.restoreIf (s.history.undoStack.drop (k + 1)).head? := by
  rw [Function.iterate_succ_apply', Session.undo, history_undos s (Nat.le_of_lt hk), History.undo,
    List.drop_eq_getElem_cons hk]

theorem undos_editor (edits : List (Edit α)) {k : Nat} (hk : k < edits.length) :
    (Session.undo^[k] (session edits)).editor = after (edits.take (edits.length - k)) := by
  cases k with
  | zero => rw [Function.iterate_zero_apply, session_editor, Nat.sub_zero, List.take_length]
  | succ k =>
    rw [editor_undos _ (by rw [session_length]; exact Nat.lt_of_succ_lt hk), List.head?_drop,
      session_getElem? edits hk]
    rfl

/-- The last undo of all is lost on the editor. -/
theorem undos_all (e : Edit α) (edits : List (Edit α)) :
    (Session.undo^[edits.length + 1] (session (e :: edits))).editor = after [e] := by
  have hlen : (session (e :: edits)).history.undoStack.length = edits.length + 1 := session_length _
  rw [editor_undos _ (by rw [hlen]; exact Nat.lt_succ_self _), List.drop_of_length_le (Nat.le_of_eq hlen),
    undos_editor _ (Nat.lt_succ_self _)]
  simp [TextEditor.restoreIf]

theorem redos (u r : List (ConcreteMemento α)) {k : Nat} (hk : k ≤ u.length) {s : Session α}
    (hs : s.history = ⟨u.drop k, (u.take k).reverse ++ r⟩) :
    (Session.redo^[k] s).history = ⟨u, r⟩ ∧
      (0 < k → (Session.redo^[k] s).editor = s.editor.restoreIf u.head?) := by
  induction k generalizing s with
  | zero => exact ⟨hs, fun h => absurd h (Nat.lt_irrefl 0)⟩
  | succ k ih =>
    have hlt : k < u.length := hk
    have hredo : s.redo = ⟨s.editor.restore u[k], ⟨u.drop k, (u.take k).reverse ++ r⟩⟩ := by
      rw [Session.redo, hs, reverse_take_succ _ hlt, List.drop_eq_getElem_cons hlt]
      rfl
    rw [Function.iterate_succ_apply, hredo]
    obtain ⟨hhist, hedit⟩ := ih (Nat.le_of_lt hlt) (s := ⟨s.editor.restore u[k], _⟩) rfl
    refine ⟨hhist, fun _ => ?_⟩
    cases k with
    | zero =>
      rw [List.head?_eq_getElem?, List.getElem?_eq_getElem hlt]
      rfl
    | succ k =>
      rw [hedit (Nat.succ_pos k)]
      cases u with
      | nil => cases hlt
      | cons m u => rfl

/-! ## Undo and redo through the protocol -/

def Undoes (edits : List (Edit α)) (k : Nat) : Prop :=
  (Session.undo^[k] (session edits)).editor = after (edits.take (edits.length - k))

def Redoes (edits : List (Edit α)) (k : Nat) : Prop :=
  (Session.redo^[k] (Session.undo^[k] (session edits))).editor = after edits

/-- The edits that leave a fresh editor as it is. -/
def Edit.isVoid : Edit α → Bool
  | .type text => text.isEmpty
  | .setCursor pos => pos == 0
  | .clear => true

theorem isVoid_iff (e : Edit α) : e.isVoid = true ↔ after [e] = {} := by
  cases e with
  | type text => simp [Edit.isVoid, after, TextEditor.apply]
  | setCursor pos => simp [Edit.isVoid, after, TextEditor.apply]
  | clear => simp [Edit.isVoid, after, TextEditor.apply]

theorem redoes (edits : List (Edit α)) {k : Nat} (hk : k ≤ edits.length) : Redoes edits k := by
  have hlen := session_length edits
  have hhist := history_undos (session edits) (k := k) (by rw [hlen]; exact hk)
  obtain ⟨_, hedit⟩ := redos (session edits).history.undoStack (session edits).history.redoStack
    (k := k) (by rw [hlen]; exact hk) hhist
  cases k with
  | zero => exact session_editor edits
  | succ k =>
    rw [Redoes, hedit (Nat.succ_pos k), List.head?_eq_getElem?,
      session_getElem? edits (Nat.lt_of_lt_of_le (Nat.succ_pos k) hk), Nat.sub_zero, List.take_length]
    rfl

theorem undoes_iff (edits : List (Edit α)) {k : Nat} (hk : k ≤ edits.length) :
    Undoes edits k ↔ k < edits.length ∨ ∀ e ∈ edits.head?, e.isVoid = true := by
  by_cases hlt : k < edits.length
  · exact iff_of_true (undos_editor edits hlt) (Or.inl hlt)
  · have hkn : k = edits.length := Nat.le_antisymm hk (Nat.le_of_not_lt hlt)
    rw [hkn, Undoes, Nat.sub_self, List.take_zero]
    cases edits with
    | nil => exact iff_of_true rfl (Or.inr nofun)
    | cons e edits =>
      rw [List.length_cons, undos_all]
      simp [isVoid_iff, after]

/-- **Undo and redo**, at every depth of the history: redo always brings the last state back, and undo
reaches the state it should, except that the last undo of all leaves what the first edit made of the editor. -/
theorem undo_redo_iff (edits : List (Edit α)) (k : Nat) (hk : k ≤ edits.length) :
    (Undoes edits k ∧ Redoes edits k) ↔ (k < edits.length ∨ ∀ e ∈ edits.head?, e.isVoid = true) := by
  rw [undoes_iff edits hk]
  exact and_iff_left (redoes edits hk)

end

theorem undo_redo_iff_clear :
    Undoes [.clear, .type [1], .setCursor 3] 3 ∧ Redoes [.clear, .type [1], .setCursor 3] 3 :=
  (undo_redo_iff [Edit.clear, .type [1], .setCursor 3] 3 (by decide)).mpr (Or.inr (by simp [Edit.isVoid]))

/-- One edit, one undo: the text is still there. -/
theorem undo_stuck :
    ¬ ∀ (edits : List (Edit Nat)) (k : Nat), k ≤ edits.length → Undoes edits k ∧ Redoes edits k := by
  intro h
  have hu := (h [.type [1]] 1 (by decide)).1
  revert hu
  simp [Undoes, session, Session.edit, Session.undo, History.push, History.undo, TextEditor.apply,
    TextEditor.restoreIf, after]

end Playground.Memento
