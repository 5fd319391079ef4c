import Playground.CommandEditor

/-!
# Undo and redo walk through the versions of the document

The editor keeps no versions, only commands. Each command on a stack leads
from one version to the next and back (`Leads`): those on the undo stack end
in the present text, those on the redo stack start from it. So the editor
simulates a history of versions with a cursor.
-/

namespace Playground.CommandEditor

section
variable {α : Type}

/-! ## The history of versions -/

/-- All versions that can be reached by undo and redo, and which one is shown. -/
structure History (α : Type) where
  versions : List (List α)
  cursor : Nat

def History.text (h : History α) : List α := (h.versions[h.cursor]?).getD []

def History.edit (h : History α) (text : List α) : History α :=
  ⟨h.versions.take (h.cursor + 1) ++ [text], h.cursor + 1⟩

def history (α : Type) : Spec (History α) (Call α) Outcome where
  init := ⟨[[]], 0⟩
  step h
    | .insert pos text =>
      if pos ≤ h.text.length then (h.edit (h.text.take pos ++ text ++ h.text.drop pos), .returned) else (h, .thrown)
    | .erase pos len =>
      if pos ≤ h.text.length then (h.edit (h.text.take pos ++ h.text.drop (pos + len)), .returned) else (h, .thrown)
    | .undo => ({ h with cursor := h.cursor - 1 }, .returned)
    | .redo => (if h.cursor + 1 < h.versions.length then { h with cursor := h.cursor + 1 } else h, .returned)

/-! ## One command -/

/-- `cmd` leads from `v` to `w`, and back. -/
def Leads (cmd : Command α) (v w : List α) : Prop := cmd.execute v = some (cmd, w) ∧ cmd.undo w = some v

theorem split_at {text : List α} {pos : Nat} (h : pos ≤ text.length) :
    ∃ a b, text = a ++ b ∧ a.length = pos :=
  ⟨text.take pos, text.drop pos, (List.take_append_drop pos text).symm, List.length_take_of_le h⟩

theorem insert_leads {v : List α} {pos : Nat} (h : pos ≤ v.length) (text : List α) :
    Leads (.insertCommand pos text) v (v.take pos ++ text ++ v.drop pos) := by
  obtain ⟨a, b, rfl, rfl⟩ := split_at h
  constructor
  · simp [Command.execute, TextDocument.insert]
  · have hle : a.length ≤ a.length + text.length + b.length := by omega
    simp [Command.undo, TextDocument.erase, ← Nat.add_assoc, hle]

theorem delete_leads {v : List α} {pos : Nat} (h : pos ≤ v.length) (len : Nat) :
    Leads (.deleteCommand pos len ((v.drop pos).take len)) v (v.take pos ++ v.drop (pos + len)) := by
  obtain ⟨a, b, rfl, rfl⟩ := split_at h
  constructor
  · simp [Command.execute, TextDocument.erase, substr]
  · simp [Command.undo, TextDocument.insert]

theorem execute_insert (v : List α) (pos : Nat) (text : List α) :
    (Command.insertCommand pos text).execute v =
      if pos ≤ v.length then some (.insertCommand pos text, v.take pos ++ text ++ v.drop pos) else none := by
  by_cases h : pos ≤ v.length
  · rw [if_pos h]
    exact (insert_leads h text).1
  · simp [Command.execute, TextDocument.insert, h]

theorem execute_delete (v : List α) (pos len : Nat) (deleted : List α) :
    (Command.deleteCommand pos len deleted).execute v =
      if pos ≤ v.length then
        some (.deleteCommand pos len ((v.drop pos).take len), v.take pos ++ v.drop (pos + len))
      else none := by
  by_cases h : pos ≤ v.length
  · simp [Command.execute, TextDocument.erase, substr, h]
  · simp [Command.execute, substr, h]

/-! ## The stacks -/

def Undoes : List (Command α) → List α → List (List α) → Prop
  | [], _, [] => True
  | cmd :: cmds, text, v :: past => Leads cmd v text ∧ Undoes cmds v past
  | _, _, _ => False

def Redoes : List (Command α) → List α → List (List α) → Prop
  | [], _, [] => True
  | cmd :: cmds, text, v :: future => Leads cmd text v ∧ Redoes cmds v future
  | _, _, _ => False

def Rep (e : TextEditor α) (h : History α) : Prop :=
  ∃ past future, h = ⟨past.reverse ++ e.doc :: future, past.length⟩ ∧
    Undoes e.undoStack e.doc past ∧ Redoes e.redoStack e.doc future

theorem rep_init : Rep (textEditor α).init (history α).init := ⟨[], [], rfl, trivial, trivial⟩

theorem Rep.text_eq {e : TextEditor α} {h : History α} (hr : Rep e h) : h.text = e.doc := by
  obtain ⟨past, future, rfl, -, -⟩ := hr
  simp [History.text]

theorem Rep.edit {e : TextEditor α} {h : History α} (hr : Rep e h) {cmd : Command α} {text : List α}
    (hl : Leads cmd e.doc text) :
    Rep { doc := text, undoStack := cmd :: e.undoStack, redoStack := [] } (h.edit text) := by
  obtain ⟨past, future, rfl, hu, -⟩ := hr
  refine ⟨e.doc :: past, [], ?_, ⟨hl, hu⟩, trivial⟩
  have hpast : past.reverse.take (past.length + 1) = past.reverse := List.take_of_length_le (by simp)
  simp [History.edit, List.take_append, hpast]

theorem rep_insert {e : TextEditor α} {h : History α} (hr : Rep e h) (pos : Nat) (text : List α) :
    (insert e pos text).2 = ((history α).step h (.insert pos text)).2 ∧
      Rep (insert e pos text).1 ((history α).step h (.insert pos text)).1 := by
  simp only [insert, executeCmd, execute_insert, history, hr.text_eq]
  by_cases hpos : pos ≤ e.doc.length
  · simp only [if_pos hpos]
    exact ⟨trivial, hr.edit (insert_leads hpos text)⟩
  · simp only [if_neg hpos]
    exact ⟨trivial, hr⟩

theorem rep_erase {e : TextEditor α} {h : History α} (hr : Rep e h) (pos len : Nat) :
    (erase e pos len).2 = ((history α).step h (.erase pos len)).2 ∧
      Rep (erase e pos len).1 ((history α).step h (.erase pos len)).1 := by
  simp only [erase, executeCmd, execute_delete, history, hr.text_eq]
  by_cases hpos : pos ≤ e.doc.length
  · simp only [if_pos hpos]
    exact ⟨trivial, hr.edit (delete_leads hpos len)⟩
  · simp only [if_neg hpos]
    exact ⟨trivial, hr⟩

theorem rep_undo {e : TextEditor α} {h : History α} (hr : Rep e h) :
    (undo e).2 = .returned ∧ Rep (undo e).1 ((history α).step h .undo).1 := by
  obtain ⟨past, future, rfl, hu, hre⟩ := hr
  obtain ⟨doc, undoStack, redoStack⟩ := e
  cases undoStack with
  | nil =>
    cases past with
    | nil => exact ⟨rfl, [], future, rfl, trivial, hre⟩
    | cons v past => cases hu
  | cons cmd cmds =>
    cases past with
    | nil => cases hu
    | cons v past =>
      obtain ⟨hl, hu⟩ := hu
      simp only [undo, hl.2]
      refine ⟨trivial, past, doc :: future, ?_, hu, hl, hre⟩
      simp [history]

theorem rep_redo {e : TextEditor α} {h : History α} (hr : Rep e h) :
    (redo e).2 = .returned ∧ Rep (redo e).1 ((history α).step h .redo).1 := by
  obtain ⟨past, future, rfl, hu, hre⟩ := hr
  obtain ⟨doc, undoStack, redoStack⟩ := e
  cases redoStack with
  | nil =>
    cases future with
    | nil =>
      refine ⟨rfl, past, [], ?_, hu, trivial⟩
      simp [history, redo]
    | cons v future => cases hre
  | cons cmd cmds =>
    cases future with
    | nil => cases hre
    | cons v future =>
      obtain ⟨hl, hre⟩ := hre
      simp only [redo, hl.1]
      refine ⟨trivial, doc :: past, future, ?_, ⟨hl, hu⟩, hre⟩
      simp [history]

theorem textEditor_simulates : (textEditor α).Simulates (history α) Rep where
  init := rep_init
  step := by
    intro e h c hr
    cases c with
    | insert pos text =>
      obtain ⟨ho, hr'⟩ := rep_insert hr pos text
      exact ⟨_, congrArg some (Prod.ext rfl ho), hr'⟩
    | erase pos len =>
      obtain ⟨ho, hr'⟩ := rep_erase hr pos len
      exact ⟨_, congrArg some (Prod.ext rfl ho), hr'⟩
    | undo =>
      obtain ⟨ho, hr'⟩ := rep_undo hr
      exact ⟨_, congrArg some (Prod.ext rfl ho), hr'⟩
    | redo =>
      obtain ⟨ho, hr'⟩ := rep_redo hr
      exact ⟨_, congrArg some (Prod.ext rfl ho), hr'⟩

/-- The editor after some calls that have made the history `h`, and at the next call. -/
structure ShowsHistory (e : TextEditor α) (h : History α) : Prop where
  text : e.doc = h.text
  insert_thrown : ∀ pos text, e.doc.length < pos → insert e pos text = (e, .thrown)
  insert_returned : ∀ pos text, pos ≤ e.doc.length → (insert e pos text).2 = .returned
  erase_thrown : ∀ pos len, e.doc.length < pos → erase e pos len = (e, .thrown)
  erase_returned : ∀ pos len, pos ≤ e.doc.length → (erase e pos len).2 = .returned
  undo_returned : (undo e).2 = .returned
  redo_returned : (redo e).2 = .returned

theorem Rep.shows {e : TextEditor α} {h : History α} (hr : Rep e h) : ShowsHistory e h where
  text := hr.text_eq.symm
  insert_thrown := by
    intro pos text hpos
    simp only [insert, executeCmd, execute_insert, if_neg (Nat.not_le_of_lt hpos)]
  insert_returned := by
    intro pos text hpos
    simp only [insert, executeCmd, execute_insert, if_pos hpos]
  erase_thrown := by
    intro pos len hpos
    simp only [erase, executeCmd, execute_delete, if_neg (Nat.not_le_of_lt hpos)]
  erase_returned := by
    intro pos len hpos
    simp only [erase, executeCmd, execute_delete, if_pos hpos]
  undo_returned := (rep_undo hr).1
  redo_returned := (rep_redo hr).1

/-- **Undo and redo** show the versions of the document, after any calls. -/
theorem textEditor_refines (cs : List (Call α)) :
    ∃ e, (textEditor α).exec cs = some e ∧ ShowsHistory e ((history α).exec cs) := by
  obtain ⟨e, he, hr⟩ := textEditor_simulates.exec cs
  exact ⟨e, he, hr.shows⟩

end

/-- An edit that is undone and redone around a call that throws. -/
example : ((textEditor Nat).exec [.insert 0 [1, 2, 3], .erase 1 9, .undo, .erase 4 1, .redo]).map
    TextEditor.doc = some [1] := by decide

end Playground.CommandEditor
